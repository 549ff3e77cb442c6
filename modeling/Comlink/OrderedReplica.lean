import Comlink.SemOrder
import Comlink.Substrate

/-!
# A replica with its order layer and substrate

What `NewSubstrate` wires together: a conversation, the order layer that reads its
delivery channel, and the substrate that reads the output of the order layer. The
goroutines interleave freely, and every handler or pump iteration is one step. The
broadcast of a watermark and the trim after it belong to a goroutine of their own.
-/
namespace Comlink
open GuardedRuns

inductive OrderingKind where
  | partialOrder
  | total
  | semOrder (classifier : List UInt8 → ℤ)

/-- The order layer of a substrate. A partial order only forwards, so that its state is
what it has emitted. -/
inductive OrderLayer where
  | partialOrder (emitted : List Envelope)
  | total (t : Total)
  | semOrder (o : SemOrder)

inductive OrderAction where
  | forward
  | total (a : PumpAction)
  | semOrder (ch : SemChoices)

namespace OrderLayer

/-- `buildOrder` for a conversation with the given membership. -/
def build (m : Membership) : OrderingKind → OrderLayer
  | .partialOrder => .partialOrder []
  | .total => .total .new
  | .semOrder classifier => .semOrder (.new classifier m)

def emitted : OrderLayer → List Envelope
  | .partialOrder out => out
  | .total t => t.emitted
  | .semOrder o => o.emitted

def pump (c : Conversation) : OrderLayer → OrderAction → Option OrderLayer
  | .partialOrder out, .forward => (c.delivered[out.length]?).map fun env =>
      .partialOrder (out ++ [env])
  | .total t, .total a => (t.pump c a).map .total
  | .semOrder o, .semOrder ch => (o.pump c ch).map .semOrder
  | _, _ => none

section Holds

variable {P Q : Envelope → Prop} {l l' : OrderLayer} {c c' : Conversation} {a : OrderAction}

/-- Every message that the layer has emitted or may still emit by itself satisfies `P`. -/
def Holds (P : Envelope → Prop) : OrderLayer → Prop
  | .partialOrder out => ∀ e ∈ out, P e
  | .total t => ∀ e ∈ t.emitted ++ t.pending, P e
  | .semOrder o => o.Holds P

theorem holds_build (m : Membership) (kind : OrderingKind) : Holds P (build m kind) := by
  cases kind with
  | partialOrder => exact nofun
  | total => exact nofun
  | semOrder classifier => exact SemOrder.holds_new classifier m

theorem Holds.mono (h : Holds P l) (hPQ : ∀ e, P e → Q e) : Holds Q l := by
  cases l with
  | partialOrder out => exact fun e he => hPQ e (h e he)
  | total t => exact fun e he => hPQ e (h e he)
  | semOrder o => exact SemOrder.Holds.mono h hPQ

theorem Holds.mem_emitted (h : Holds P l) {e : Envelope} (he : e ∈ l.emitted) : P e := by
  cases l with
  | partialOrder out => exact h e he
  | total t => exact h e (List.mem_append_left _ he)
  | semOrder o => exact h.emitted e he

theorem holds_pump_total {t t' : Total} {a : PumpAction} (hc : ∀ n ∈ c.graph.nodes, P n.envelope)
    (h : Holds P (.total t)) (hp : t.pump c a = some t') : Holds P (.total t') := by
  have hfetched : ∀ e ∈ t'.emitted ++ t'.pending, e ∈ t.emitted ++ t.pending ∨
      ∃ n ∈ c.graph.nodes, n.envelope = e := by
    intro e he
    cases Total.pump_effect hp with
    | recv hphase _ => exact Or.inl (by simpa [Total.pending, hphase] using he)
    | waveComplete hphase hnext =>
      rcases hnext with rfl | rfl <;> exact Or.inl (by simpa [Total.pending, hphase] using he)
    | refused hphase => exact Or.inl (by simpa [Total.pending, hphase] using he)
    | admitted hphase _ => exact Or.inl (by simpa [Total.pending, hphase] using he)
    | next hphase => exact Or.inl (by simpa [Total.pending, hphase] using he)
    | emit hphase => exact Or.inl (by simpa [Total.pending, hphase] using he)
    | fetch hphase hs =>
      rcases List.mem_append.mp he with he | he
      · exact Or.inl (List.mem_append_left _ he)
      · obtain ⟨n, hn, hne⟩ := List.mem_map.mp (hs.mem_iff.mp he)
        exact Or.inr ⟨n, (Graph.mem_messagesInWave.mp hn).1, hne⟩
  intro e he
  rcases hfetched e he with hold | ⟨n, hn, rfl⟩
  · exact h e hold
  · exact hc n hn

theorem pump_cases (h : l.pump c a = some l') :
    (∃ out env, l = .partialOrder out ∧ c.delivered[out.length]? = some env ∧
        l' = .partialOrder (out ++ [env])) ∨
      (∃ t pa t', l = .total t ∧ t.pump c pa = some t' ∧ l' = .total t') ∨
      ∃ o ch o', l = .semOrder o ∧ o.pump c ch = some o' ∧ l' = .semOrder o' := by
  unfold pump at h
  split at h
  · obtain ⟨env, henv, rfl⟩ := Option.map_eq_some_iff.mp h
    exact Or.inl ⟨_, env, rfl, henv, rfl⟩
  · obtain ⟨t', ht, rfl⟩ := Option.map_eq_some_iff.mp h
    exact Or.inr (Or.inl ⟨_, _, t', rfl, ht, rfl⟩)
  · obtain ⟨o', ho, rfl⟩ := Option.map_eq_some_iff.mp h
    exact Or.inr (Or.inr ⟨_, _, o', rfl, ho, rfl⟩)
  · cases h

theorem Holds.pump (h : Holds P l) (hd : ∀ e ∈ c.delivered, P e)
    (hc : ∀ n ∈ c.graph.nodes, P n.envelope) (hp : l.pump c a = some l') : Holds P l' := by
  rcases pump_cases hp with ⟨out, env, rfl, henv, rfl⟩ | ⟨t, pa, t', rfl, ht, rfl⟩ |
    ⟨o, ch, o', rfl, ho, rfl⟩
  · intro e he
    rcases List.mem_append.mp he with he | he
    · exact h e he
    · rw [List.mem_singleton.mp he]
      exact hd env (List.mem_of_getElem? henv)
  · exact holds_pump_total hc h ht
  · exact SemOrder.Holds.pump h hd ho

theorem emitted_pump (hp : l.pump c a = some l') : l.emitted <+: l'.emitted := by
  rcases pump_cases hp with ⟨out, env, rfl, henv, rfl⟩ | ⟨t, pa, t', rfl, ht, rfl⟩ |
    ⟨o, ch, o', rfl, ho, rfl⟩
  · exact List.prefix_append _ _
  · cases Total.pump_effect ht with
    | emit _ => exact List.prefix_append _ _
    | _ => exact List.prefix_rfl
  · exact SemOrder.emitted_pump ho

/-- A partial order has emitted the first messages of the delivery channel. -/
def Forwards (c : Conversation) (l : OrderLayer) : Prop :=
  ∀ out, l = .partialOrder out → out <+: c.delivered

theorem forwards_build (m : Membership) (kind : OrderingKind) : Forwards c (build m kind) := by
  rintro out h
  cases kind with
  | partialOrder =>
    cases h
    exact List.nil_prefix
  | total => cases h
  | semOrder classifier => cases h

theorem Forwards.pump (h : Forwards c l) (hp : l.pump c a = some l') : Forwards c l' := by
  rintro out' rfl
  rcases pump_cases hp with ⟨out, env, rfl, henv, hout⟩ | ⟨_, _, _, _, _, hout⟩ |
    ⟨_, _, _, _, _, hout⟩
  · cases hout
    obtain ⟨rest, hrest⟩ := h out rfl
    rw [← hrest, List.getElem?_append_right (Nat.le_refl _), Nat.sub_self] at henv
    cases rest with
    | nil => cases henv
    | cons x rest =>
      cases henv
      exact ⟨rest, by rw [← hrest, List.append_assoc, List.singleton_append]⟩
  · cases hout
  · cases hout

end Holds

end OrderLayer

structure Replica where
  conv : Conversation
  ord : OrderLayer
  sub : Substrate
  consumed : ℕ

inductive ReplicaAction where
  | request (req : Conversation.Request)
  | order (a : OrderAction)
  | apply
  | awaitSubmit (k : Key)
  | cancelSubmit (k : Key)
  | waitForCausality (k : Key)
  | cancelWait (k : Key)
  | advanceSnapshotWatermark (through : ℕ)
  | publish (io : HandlerChoices) (i : ℕ)
  | trim

namespace Replica

/-- `NewSubstrate` of member `p` over an existing log and mask, with the through-offset
of the initial snapshot. -/
def boot (G : Group) (p : ReplicaID) (kind : OrderingKind) (through : ℕ)
    (mask : List ReplicaID) (log : MessageLog) : Replica where
  conv := Conversation.init G.convID p ((G.slot p).getD 0) G.members mask log
  ord := .build (Membership.ofReplicas G.members) kind
  sub := .new G.members p through
  consumed := 0

def start (G : Group) (p : ReplicaID) (kind : OrderingKind) (through : ℕ) : Replica :=
  boot G p kind through [] .empty

/-- The messages of the order layer that the apply pump has handled. -/
def handed (s : Replica) : List Envelope := s.ord.emitted.take s.consumed

/-- The apply pump stands still while the order layer goes on. -/
theorem handed_of_idle {s t : Replica} (hle : s.consumed ≤ s.ord.emitted.length)
    (hc : t.consumed = s.consumed) (hemit : s.ord.emitted <+: t.ord.emitted) :
    t.handed = s.handed := by
  obtain ⟨rest, hrest⟩ := hemit
  rw [handed, handed, hc, ← hrest]
  exact List.take_append_of_le_length hle

theorem handed_succ {s : Replica} {env : Envelope} (henv : s.ord.emitted[s.consumed]? = some env)
    (c : Conversation) (sub : Substrate) :
    (Replica.mk c s.ord sub (s.consumed + 1)).handed = s.handed ++ [env] := by
  rw [handed, handed, List.take_add_one, henv]
  rfl

/-- The send of a watermark by the goroutine of `AdvanceSnapshotWatermark`. -/
def publish (K : FrameCodec) (s : Replica) (io : HandlerChoices) (i : ℕ) (mark : ℕ × ℕ) :
    Replica :=
  let c := s.conv.handle (.send io (K.marshal (.watermark mark.1 mark.2)))
  { s with conv := c, sub := s.sub.published i (c.issued ≠ s.conv.issued) }

def step (K : FrameCodec) (s : Replica) : ReplicaAction → Option Replica
  | .request req => some { s with conv := s.conv.handle req }
  | .order a => (s.ord.pump s.conv a).map fun ord => { s with ord := ord }
  | .apply => (s.ord.emitted[s.consumed]?).map fun env =>
      let r := s.sub.handleApplied K s.conv.log env
      { s with conv := { s.conv with log := r.2 }, sub := r.1, consumed := s.consumed + 1 }
  | .awaitSubmit k => some { s with sub := s.sub.awaitSubmit k }
  | .cancelSubmit k => some { s with sub := s.sub.cancelSubmit k }
  | .waitForCausality k => some { s with sub := s.sub.waitForCausality k }
  | .cancelWait k => some { s with sub := s.sub.cancelWait k }
  | .advanceSnapshotWatermark through =>
      some { s with sub := s.sub.advanceSnapshotWatermark through }
  | .publish io i => (s.sub.toPublish[i]?).map (s.publish K io i)
  | .trim =>
    if s.sub.trimDue = 0 then none
    else some { s with
      conv := { s.conv with log := s.sub.maybeTrim s.conv.log }
      sub := { s.sub with trimDue := s.sub.trimDue - 1 } }

/-- The member list stays as it was configured: members are only added to the system
conversation of a cluster, never to that of a substrate. -/
def Static (_ : Replica) : ReplicaAction → Prop
  | .request req => req.isStatic = true
  | _ => True

instance (s : Replica) (a : ReplicaAction) : Decidable (Static s a) :=
  match a with
  | .request req => inferInstanceAs (Decidable (req.isStatic = true))
  | .order _ | .apply | .awaitSubmit _ | .cancelSubmit _ | .waitForCausality _ | .cancelWait _
  | .advanceSnapshotWatermark _ | .publish _ _ | .trim => isTrue trivial

section Scripts

def duo : Group := ⟨[0], [[1], [2]]⟩

/-- The message of `p` with a clock and a frame. -/
def message (p : ReplicaID) (clock : VectorClock) (frame : ConvFrame) : Envelope :=
  ⟨⟨some [0], some p, clock⟩, FrameCodec.tagged.marshal frame⟩

def send (frame : ConvFrame) : ReplicaAction :=
  .request (.send .standard (FrameCodec.tagged.marshal frame))

def receive (env : Envelope) : ReplicaAction :=
  .request (.incoming .standard env.sender (.envelope env))

/-- A message passes the partial order and the apply pump. -/
def forward : List ReplicaAction := [.order .forward, .apply]

end Scripts

section Effects

variable {K : FrameCodec} {s t : Replica} {a : ReplicaAction}

/-- Everything that a step of a replica can do. -/
inductive Effect (K : FrameCodec) (s : Replica) : ReplicaAction → Replica → Prop
  | request (req : Conversation.Request) :
      Effect K s (.request req) { s with conv := s.conv.handle req }
  | order {a : OrderAction} {ord : OrderLayer} (h : s.ord.pump s.conv a = some ord) :
      Effect K s (.order a) { s with ord := ord }
  | apply {env : Envelope} {sub : Substrate} {log : MessageLog}
      (henv : s.ord.emitted[s.consumed]? = some env)
      (h : s.sub.AppliedEffect K s.conv.log env sub log) :
      Effect K s .apply { s with
        conv := { s.conv with log := log }
        sub := sub
        consumed := s.consumed + 1 }
  | wait {a : ReplicaAction} {sub : Substrate} (h : s.sub.WaitersOnly sub) :
      Effect K s a { s with sub := sub }
  | advance (through : ℕ) : Effect K s (.advanceSnapshotWatermark through)
      { s with sub := s.sub.advanceSnapshotWatermark through }
  | publish {io : HandlerChoices} {i : ℕ} {mark : ℕ × ℕ} (h : s.sub.toPublish[i]? = some mark) :
      Effect K s (.publish io i) (s.publish K io i mark)
  | trim : Effect K s .trim { s with
        conv := { s.conv with log := s.sub.maybeTrim s.conv.log }
        sub := { s.sub with trimDue := s.sub.trimDue - 1 } }

theorem step_effect (h : step K s a = some t) : Effect K s a t := by
  cases a with
  | request req =>
    cases h
    exact .request req
  | order a =>
    obtain ⟨ord, hord, rfl⟩ := Option.map_eq_some_iff.mp h
    exact .order hord
  | apply =>
    obtain ⟨env, henv, rfl⟩ := Option.map_eq_some_iff.mp h
    exact .apply henv (Substrate.handleApplied_effect K _ _ _)
  | awaitSubmit k =>
    cases h
    exact .wait (Substrate.waitersOnly_awaitSubmit _ k)
  | cancelSubmit k =>
    cases h
    exact .wait (Substrate.waitersOnly_cancelSubmit _ k)
  | waitForCausality k =>
    cases h
    exact .wait (Substrate.waitersOnly_waitForCausality _ k)
  | cancelWait k =>
    cases h
    exact .wait (Substrate.waitersOnly_cancelWait _ k)
  | advanceSnapshotWatermark through =>
    cases h
    exact .advance through
  | publish io i =>
    obtain ⟨mark, hmark, rfl⟩ := Option.map_eq_some_iff.mp h
    exact .publish hmark
  | trim =>
    rw [step] at h
    split at h
    · cases h
    · cases h
      exact .trim

/-- The request that a step makes of the conversation: its own, or one by which the
substrate trims the log or broadcasts a watermark. -/
inductive Requests (K : FrameCodec) (s : Replica) : ReplicaAction → Conversation.Request → Prop
  | request (req : Conversation.Request) : Requests K s (.request req) req
  | truncateLog {a : ReplicaAction} (f : ℕ) : Requests K s a (.truncateLog f)
  | watermark {io : HandlerChoices} {i : ℕ} {mark : ℕ × ℕ}
      (h : s.sub.toPublish[i]? = some mark) :
      Requests K s (.publish io i) (.send io (K.marshal (.watermark mark.1 mark.2)))

/-- Whatever a step does to the conversation is the effect of a request. -/
theorem Effect.conv (h : Effect K s a t) : t.conv = s.conv ∨
    ∃ req, t.conv = s.conv.handle req ∧ Requests K s a req := by
  have htrunc : ∀ {log : MessageLog}, (log = s.conv.log ∨ ∃ f, log = s.conv.log.truncate f) →
      ({ s.conv with log := log } : Conversation) = s.conv ∨
        ∃ req, { s.conv with log := log } = s.conv.handle req ∧ Requests K s a req := by
    rintro log (rfl | ⟨f, rfl⟩)
    · exact Or.inl rfl
    · exact Or.inr ⟨.truncateLog f, rfl, .truncateLog f⟩
  cases h with
  | request req => exact Or.inr ⟨req, rfl, .request req⟩
  | order h => exact Or.inl rfl
  | apply henv h =>
    cases h with
    | ignored _ => exact Or.inl rfl
    | watermark _ hlog => exact htrunc (hlog.imp_right fun ⟨f, hf, _⟩ => ⟨f, hf⟩)
    | message _ _ => exact Or.inl rfl
  | wait h => exact Or.inl rfl
  | advance through => exact Or.inl rfl
  | publish h => exact Or.inr ⟨_, rfl, .watermark h⟩
  | trim =>
    exact htrunc ((s.sub.maybeTrim_cases s.conv.log).imp_right fun ⟨f, _, hf⟩ => ⟨f, hf⟩)

theorem Requests.isStatic {req : Conversation.Request} (h : Requests K s a req)
    (hs : Static s a) : req.isStatic = true := by
  cases h with
  | request req => exact hs
  | truncateLog f => rfl
  | watermark hm => rfl

theorem Effect.roster (h : Effect K s a t) :
    t.sub.members = s.sub.members ∧ t.sub.self = s.sub.self := by
  cases h with
  | request req => exact ⟨rfl, rfl⟩
  | order h => exact ⟨rfl, rfl⟩
  | apply henv h => cases h <;> simp
  | wait h =>
    rw [h.frame]
    exact ⟨rfl, rfl⟩
  | advance through =>
    rw [Substrate.advanceSnapshotWatermark_eq]
    exact ⟨rfl, rfl⟩
  | publish h => exact ⟨rfl, rfl⟩
  | trim => exact ⟨rfl, rfl⟩

theorem Effect.members (h : Effect K s a t) : t.sub.members = s.sub.members := h.roster.1

end Effects

section Invariant

variable {K : FrameCodec} {s t : Replica} {a : ReplicaAction} {members : List ReplicaID}
open Conversation

/-- The conversation is live, and the layers above it hold what it has delivered. -/
structure Invariant (members : List ReplicaID) (s : Replica) : Prop where
  live : Live members s.conv
  members : s.sub.members = members
  stored : s.ord.Holds (· ∈ s.conv.delivered)
  forwards : s.ord.Forwards s.conv
  consumed : s.consumed ≤ s.ord.emitted.length

theorem invariant_start {G : Group} {p : ReplicaID} (hp : p ∈ G.members) (kind : OrderingKind)
    (through : ℕ) : Invariant G.members (start G p kind through) :=
  ⟨live_init (Group.slot_start hp), rfl, OrderLayer.holds_build _ kind,
    OrderLayer.forwards_build _ kind, Nat.zero_le _⟩

theorem Invariant.conv_step (h : Invariant members s) (hs : Static s a) (he : Effect K s a t) :
    Live members t.conv ∧ Extends s.conv t.conv := by
  rcases he.conv with hc | ⟨req, hc, hreq⟩
  · rw [hc]
    exact ⟨h.live, Extends.refl _⟩
  · have hstatic := hreq.isStatic hs
    rw [hc]
    exact ⟨h.live.handle hstatic, (h.live.effect req hstatic).extends⟩

/-- The order layer changes in its own step only. -/
theorem Effect.ord (he : Effect K s a t) : t.ord = s.ord ∨
    ∃ oa, a = .order oa ∧ s.ord.pump s.conv oa = some t.ord ∧ t = { s with ord := t.ord } := by
  cases he with
  | order h => exact Or.inr ⟨_, rfl, h, rfl⟩
  | _ => exact Or.inl rfl

theorem forwarding_step (h : ∃ out, s.ord = .partialOrder out) (he : Effect K s a t) :
    ∃ out, t.ord = .partialOrder out := by
  obtain ⟨out, ho⟩ := h
  rcases he.ord with hsame | ⟨oa, _, hp, _⟩
  · exact ⟨out, hsame.trans ho⟩
  · rcases OrderLayer.pump_cases hp with ⟨_, _, _, _, hout⟩ | ⟨_, _, _, hl, _⟩ |
      ⟨_, _, _, hl, _⟩
    · exact ⟨_, hout⟩
    · rw [ho] at hl
      cases hl
    · rw [ho] at hl
      cases hl

theorem Effect.consumed (he : Effect K s a t) : t.consumed = s.consumed ∨
    t.consumed = s.consumed + 1 ∧ t.ord = s.ord ∧ s.consumed < s.ord.emitted.length := by
  cases he with
  | apply henv h => exact Or.inr ⟨rfl, rfl, (List.getElem?_eq_some_iff.mp henv).1⟩
  | _ => exact Or.inl rfl

theorem Invariant.step (h : Invariant members s) (hs : Static s a) (he : Effect K s a t) :
    Invariant members t := by
  obtain ⟨hlive, hext⟩ := h.conv_step hs he
  have hmono : ∀ e, e ∈ s.conv.delivered → e ∈ t.conv.delivered :=
    fun e hmem => hext.delivered.subset hmem
  have hpre : s.ord.emitted <+: t.ord.emitted := by
    rcases he.ord with ho | ⟨oa, _, hp, _⟩
    · rw [ho]
    · exact OrderLayer.emitted_pump hp
  refine ⟨hlive, he.members.trans h.members, ?_, ?_, ?_⟩
  · rcases he.ord with ho | ⟨oa, _, hp, ht⟩
    · rw [ho]
      exact h.stored.mono hmono
    · have hpumped := h.stored.pump (fun e hmem => hmem) (fun n hn => by
        rw [h.live.delivered]
        exact List.mem_map_of_mem hn) hp
      exact hpumped.mono hmono
  · rcases he.ord with ho | ⟨oa, _, hp, ht⟩
    · rw [ho]
      exact fun out hout => (h.forwards out hout).trans hext.delivered
    · exact fun out hout => (h.forwards.pump hp out hout).trans hext.delivered
  · have hlen := hpre.length_le
    have hle := h.consumed
    rcases he.consumed with hc | ⟨hc, ho, hlt⟩ <;> omega

theorem Invariant.length_handed (h : Invariant members s) : s.handed.length = s.consumed := by
  rw [handed, List.length_take]
  exact Nat.min_eq_left h.consumed

/-- What the order layer emits is in the graph. -/
theorem Invariant.node_of_emitted (h : Invariant members s) {e : Envelope}
    (he : e ∈ s.ord.emitted) : ∃ n ∈ s.conv.graph.nodes, n.envelope = e := by
  have hmem := h.stored.mem_emitted he
  rw [h.live.delivered] at hmem
  exact List.mem_map.mp hmem

/-- The key of an emitted message, by a slot of its sender that is not after its own. -/
theorem Invariant.keyOf_node (h : Invariant members s) {n : Node}
    (hn : n ∈ s.conv.graph.nodes) : ∃ i ≤ n.senderSlot,
      s.conv.membership.allReplicas[i]? = some n.envelope.sender ∧
      s.sub.keyOf n.envelope = some ⟨n.envelope.sender, n.envelope.id.vectorClock.atSlot i⟩ := by
  have hd := h.live.sound.derived n hn
  have hslot := Membership.slotOf_getElem? hd.slot
  have hmem : s.sub.members = s.conv.membership.allReplicas :=
    h.members.trans h.live.members_eq.symm
  rw [← hmem] at hslot ⊢
  exact Substrate.keyOf_eq_some hslot hd.slot_lt

/-- Under a partial order the next message is that of the next node. -/
theorem Invariant.next_node (h : Invariant members s) {out : List Envelope}
    (ho : s.ord = .partialOrder out) {e : Envelope} (he : s.ord.emitted[s.consumed]? = some e) :
    ∃ pre n post, s.conv.graph.nodes = pre ++ n :: post ∧ n.envelope = e ∧
      s.handed = pre.map Node.envelope := by
  obtain ⟨rest, hrest⟩ := h.forwards out ho
  have hemit : s.ord.emitted = out := by rw [ho]; rfl
  rw [hemit] at he
  obtain ⟨hlt, hget⟩ := List.getElem?_eq_some_iff.mp he
  have hdel : s.conv.delivered =
      out.take s.consumed ++ e :: (out.drop (s.consumed + 1) ++ rest) := by
    rw [← hrest, ← List.cons_append, ← List.append_assoc, ← hget, List.getElem_cons_drop,
      List.take_append_drop]
  rw [h.live.delivered] at hdel
  obtain ⟨pre, tail, hg, hpre, htail⟩ := List.map_eq_append_iff.mp hdel
  obtain ⟨n, post, htl, hne, _⟩ := List.map_eq_cons_iff.mp htail
  refine ⟨pre, n, post, by rw [hg, htl], hne, ?_⟩
  rw [handed, hemit, hpre]

/-- What a step means for the messages handed to the apply pump. -/
inductive Progress (K : FrameCodec) (s : Replica) (a : ReplicaAction) (t : Replica) : Prop
  | idle (hh : t.handed = s.handed) (hr : s.sub.SameRecords t.sub)
  | skip {env : Envelope} (ha : a = .apply) (henv : s.ord.emitted[s.consumed]? = some env)
      (hh : t.handed = s.handed ++ [env]) (happ : K.isApp env.payload = false)
      (hr : s.sub.SameRecords t.sub)
  | message {env : Envelope} {payload : List UInt8} {k : Key} (ha : a = .apply)
      (henv : s.ord.emitted[s.consumed]? = some env) (hh : t.handed = s.handed ++ [env])
      (happ : K.unmarshal env.payload = some (.app payload)) (hk : s.sub.keyOf env = some k)
      (hlog : t.conv.log = s.conv.log)
      (hsub : t.sub = s.sub.applyMessage
        ⟨env.id, payload, env.sender, Substrate.localOffset s.conv.log k, env.wave⟩ k)

/-- An emitted application message is never ignored: its sender holds a slot. -/
theorem Invariant.progress (h : Invariant members s) (he : Effect K s a t) :
    Progress K s a t := by
  cases he with
  | request req => exact .idle rfl (Substrate.SameRecords.refl _)
  | order hp =>
    exact .idle (handed_of_idle h.consumed rfl (OrderLayer.emitted_pump hp))
      (Substrate.SameRecords.refl _)
  | @apply env sub log henv heff =>
    have hh := handed_succ henv { s.conv with log := log } sub
    cases heff with
    | ignored hign =>
      obtain ⟨n, hn, rfl⟩ := h.node_of_emitted (List.mem_of_getElem? henv)
      obtain ⟨i, _, _, hkey⟩ := h.keyOf_node hn
      refine .skip rfl henv hh ?_ (Substrate.SameRecords.refl _)
      by_contra happ
      rw [hign (by simpa using happ)] at hkey
      cases hkey
    | watermark hw hlog =>
      refine .skip rfl henv hh ?_ ⟨rfl, rfl, rfl, fun _ h => h, fun _ h => Or.inl h⟩
      rw [FrameCodec.isApp, hw]
    | message happ hk => exact .message rfl henv hh happ hk rfl rfl
  | wait hw => exact .idle rfl hw.sameRecords
  | advance through =>
    refine .idle rfl ?_
    rw [Substrate.advanceSnapshotWatermark_eq]
    exact ⟨rfl, rfl, rfl, fun _ h => h, fun _ h => Or.inl h⟩
  | publish hm => exact .idle rfl ⟨rfl, rfl, rfl, fun _ h => h, fun _ h => Or.inl h⟩
  | trim => exact .idle rfl ⟨rfl, rfl, rfl, fun _ h => h, fun _ h => Or.inl h⟩

end Invariant

end Replica
end Comlink
