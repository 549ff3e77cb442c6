import Comlink.ClockAncestry
import Comlink.KvConvergence

/-!
# Writes over earlier writes

The replicas of a group run the key-value store over causal delivery. The conflict rule
compares waves and then the bytes of the senders, but an answer may have the wave of the
message it answers. So a replica can write over an entry that it has applied and lose to it,
here and everywhere. It cannot lose if, whenever it submits a write to a key, the entry it
holds there is not above the tag of the new message.
-/
namespace Comlink
open GuardedRuns GreatestTag

/-- The message that the substrate makes of an envelope with application data. -/
def appMessage (K : FrameCodec) (offset : ℕ) (env : Envelope) : Option Message :=
  match K.unmarshal env.payload with
  | some (.app payload) => some ⟨env.id, payload, env.sender, offset, env.wave⟩
  | _ => none

/-- Without an initial snapshot `handleApplied` hands over just this message. -/
theorem Substrate.applied_handleApplied {K : FrameCodec} {s : Substrate} {log : MessageLog}
    {env : Envelope} {k : Key} (hs : s.snapshotThrough = 0) (hk : s.keyOf env = some k) :
    (s.handleApplied K log env).1.applied =
      s.applied ++ (appMessage K (localOffset log k) env).toList := by
  have hcov : ∀ offset, ¬ s.Covered offset := by
    intro offset hc
    obtain ⟨hne, hle⟩ := hc
    omega
  unfold handleApplied appMessage
  cases K.unmarshal env.payload with
  | none => simp
  | some frame =>
    cases frame with
    | app payload => simp [hk, hcov]
    | watermark offset through =>
      simp only [handleWatermark]
      split <;> simp
    | heartbeat => simp
    | membership event => simp

/-- An envelope that a replica has sent, with what its store had applied before. -/
structure KvSubmission where
  replica : ReplicaID
  envelope : Envelope
  applied : List Envelope

/-- The stores of a group. The apply pump of each replica has handled the first so many of its
deliveries. -/
structure KvGroup where
  net : Network
  passed : ReplicaID → ℕ
  store : ReplicaID → Store
  submissions : List KvSubmission

inductive KvAction where
  | net (a : NetAction)
  | pump (p : ReplicaID) (offset : ℕ)

namespace KvGroup
open Store Conversation
open Cluster (replicaOf)

def initial (G : Group) : KvGroup := ⟨G.start, fun _ => 0, fun p => Store.new p true, []⟩

def applied (s : KvGroup) (p : ReplicaID) : List Envelope := (s.net p).delivered.take (s.passed p)

/-- What a step of the replica's conversation has sent. -/
def submitted (s : KvGroup) (p : ReplicaID) (c : Conversation) : List KvSubmission :=
  (c.issued.drop (s.net p).issued.length).map fun e => ⟨p, e, s.applied p⟩

/-- One iteration of the apply pump, with the offset at which the message is in the log. -/
def pump (U : BatchDecoder) (K : FrameCodec) (s : KvGroup) (p : ReplicaID) (offset : ℕ)
    (env : Envelope) : KvGroup :=
  { s with
    passed := Function.update s.passed p (s.passed p + 1)
    store := Function.update s.store p
      (((appMessage K offset env).map fun msg => (s.store p).apply U msg).getD (s.store p)) }

def step (U : BatchDecoder) (K : FrameCodec) (G : Group) (s : KvGroup) :
    KvAction → Option KvGroup
  | .net a => (G.netStep s.net a).map fun net =>
    { s with
      net := net
      submissions := s.submissions ++ s.submitted a.replica (net a.replica) }
  | .pump p offset => if p ∈ G.members then
      ((s.net p).delivered[s.passed p]?).map (s.pump U K p offset)
    else none

/-- The commands of a payload that is a frame with a batch. -/
def commandsIn (U : BatchDecoder) (K : FrameCodec) (payload : List UInt8) : List Command :=
  match K.unmarshal payload with
  | some (.app bytes) => (U bytes).getD []
  | _ => []

/-- The messages of the envelopes, all at the offset zero. -/
def messages (K : FrameCodec) (envs : List Envelope) : List Message :=
  envs.filterMap (appMessage K 0)

/-- All writes of the envelopes to a key. -/
def writesAt (U : BatchDecoder) (K : FrameCodec) (envs : List Envelope) (key : String) :
    List Write :=
  writesTo U (messages K envs) key

/-- The write that a store keeps for a key once it has applied the envelopes. -/
def survivorAt (U : BatchDecoder) (K : FrameCodec) (envs : List Envelope) (key : String) :
    Option Write :=
  survivor (fun w => w.entry.tag) (writesAt U K envs key)

/-- The payload that a request asks to send. -/
def sent : Request → Option (List UInt8)
  | .send _ payload => some payload
  | _ => none

/-- The member list is fixed, and who sends a write to a key holds no entry there above the
tag that the write will have. -/
def Ahead (U : BatchDecoder) (K : FrameCodec) (s : KvGroup) : KvAction → Prop
  | .net a => a.request.isStatic = true ∧ ∀ payload ∈ sent a.request,
      ∀ env ∈ (s.net a.replica).nextEnvelope payload, ∀ c ∈ commandsIn U K payload, c.Writes →
        ∀ e ∈ (s.store a.replica).data c.key, e.wave < env.wave ∨
          (e.wave = env.wave ∧ e.originRep ≤ senderArr a.replica)
  | .pump _ _ => True

instance (U : BatchDecoder) (K : FrameCodec) (s : KvGroup) (a : KvAction) :
    Decidable (Ahead U K s a) :=
  match a with
  | .net _ => inferInstanceAs (Decidable (_ ∧ _))
  | .pump _ _ => isTrue trivial

variable {U : BatchDecoder} {K : FrameCodec} {G : Group} {s t : KvGroup} {p q : ReplicaID}
  {env : Envelope} {envs : List Envelope} {key : String} {w : Write}

section Writes

theorem appMessage_eq_some {offset : ℕ} {msg : Message} (h : appMessage K offset env = some msg) :
    msg.id = env.id ∧ msg.sender = env.sender ∧ msg.wave = env.wave ∧
      commands U msg = commandsIn U K env.payload := by
  unfold appMessage at h
  unfold commandsIn commands
  cases hf : K.unmarshal env.payload with
  | none => simp [hf] at h
  | some frame =>
    cases frame with
    | app payload =>
      simp only [hf, Option.some.injEq] at h
      subst h
      exact ⟨rfl, rfl, rfl, rfl⟩
    | watermark offset through => simp [hf] at h
    | heartbeat => simp [hf] at h
    | membership event => simp [hf] at h

theorem writesAt_append (U : BatchDecoder) (K : FrameCodec) (l r : List Envelope) (key : String) :
    writesAt U K (l ++ r) key = writesAt U K l key ++ writesAt U K r key := by
  simp [writesAt, writesTo, messages]

theorem mem_writesAt : w ∈ writesAt U K envs key ↔
    ∃ env ∈ envs, w ∈ writesAt U K [env] key := by
  induction envs with
  | nil => simp [writesAt, writesTo, messages]
  | cons e envs ih =>
    rw [← List.singleton_append, writesAt_append, List.mem_append, ih]
    simp

/-- A write carries the identity of its envelope. -/
theorem eq_of_mem_writesAt (h : w ∈ writesAt U K [env] key) : w.id = env.id ∧
    w.wave = env.wave ∧ w.sender = env.sender ∧ w.cmd.key = key ∧ w.cmd.Writes ∧
      w.cmd ∈ commandsIn U K env.payload := by
  obtain ⟨hmem, hkey⟩ := List.mem_filter.mp h
  obtain ⟨msg, hmsg, hw⟩ := List.mem_flatMap.mp hmem
  obtain ⟨e, he, happ⟩ := List.mem_filterMap.mp hmsg
  rw [List.mem_singleton.mp he] at happ
  obtain ⟨hid, hsender, hwave, hcmds⟩ := appMessage_eq_some (U := U) happ
  obtain ⟨hid', hwave', hsender', -, hcmd, hwrites⟩ := mem_writesFrom hw
  exact ⟨hid'.trans hid, hwave'.trans hwave, hsender'.trans hsender, by simpa using hkey,
    hwrites, hcmds ▸ hcmd⟩

theorem tag_of_mem_writesAt (h : w ∈ writesAt U K [env] key) :
    w.entry.tag = toLex (env.wave, senderArr env.sender) := by
  obtain ⟨-, hwave, hsender, -⟩ := eq_of_mem_writesAt h
  rw [Write.entry, Command.tag_entry, hwave, hsender]

theorem pos_writesAt (U : BatchDecoder) (K : FrameCodec) (env : Envelope) (key : String) :
    (writesAt U K [env] key).Pairwise fun a b => a.pos < b.pos := by
  refine List.Pairwise.filter _ ?_
  rw [messages, List.filterMap_cons]
  cases appMessage K 0 env with
  | none => exact List.Pairwise.nil
  | some msg => simpa [writesOf] using pos_writesFrom msg 0 (commands U msg)

end Writes

section Stores

/-- The stores hold what the applied envelopes leave in them. -/
structure Stored (U : BatchDecoder) (K : FrameCodec) (G : Group) (s : KvGroup) : Prop where
  group : G.Invariant s.net
  passed : ∀ p ∈ G.members, s.passed p ≤ (s.net p).delivered.length
  data : ∀ p ∈ G.members, (s.store p).data =
    ((messages K (s.applied p)).foldl (Store.apply U) (Store.new p true)).data

theorem stored_initial (U : BatchDecoder) (K : FrameCodec) (G : Group) :
    Stored U K G (initial G) where
  group := Group.invariant_start G
  passed _ _ := Nat.zero_le _
  data _ _ := rfl

theorem Stored.data_eq (h : Stored U K G s) (hp : p ∈ G.members) (key : String) :
    (s.store p).data key = (survivorAt U K (s.applied p) key).map Write.entry := by
  rw [h.data p hp, data_new]
  rfl

/-- What a conversation does leaves the applied envelopes as they are. -/
theorem Stored.applied_of_extends (h : Stored U K G s) (hp : p ∈ G.members) {c : Conversation}
    (he : Extends (s.net p) c) : c.delivered.take (s.passed p) = s.applied p := by
  obtain ⟨rest, hrest⟩ := he.delivered
  rw [← hrest, List.take_append_of_le_length (h.passed p hp), applied]

theorem Stored.netStep (h : Stored U K G s) {a : NetAction} {net : Network}
    (hs : a.request.isStatic = true) (hstep : G.netStep s.net a = some net)
    (subs : List KvSubmission) : Stored U K G { s with net := net, submissions := subs } := by
  have hlater := h.group.later_step hs hstep
  refine ⟨h.group.step hs hstep, ?_, ?_⟩
  · intro p hp
    exact (h.passed p hp).trans (hlater p hp).delivered.length_le
  · intro p hp
    rw [h.data p hp, ← h.applied_of_extends hp (hlater p hp)]
    rfl

theorem data_apply_congr {store store' : Store} {msg msg' : Message}
    (hd : store.data = store'.data) (hm : msg.unplaced = msg'.unplaced) :
    (store.apply U msg).data = (store'.apply U msg').data := by
  have hw : writesOf U msg = writesOf U msg' := calc
    writesOf U msg = writesOf U msg.unplaced := rfl
    _ = writesOf U msg'.unplaced := by rw [hm]
    _ = writesOf U msg' := rfl
  rw [data_apply, data_apply, hd, hw]

theorem applied_pump (h : (s.net p).delivered[s.passed p]? = some env) (offset : ℕ) :
    (s.pump U K p offset env).applied p = s.applied p ++ [env] := by
  simp [applied, pump, List.take_add_one, h]

theorem applied_pump_of_ne (hne : q ≠ p) (offset : ℕ) (env : Envelope) :
    (s.pump U K p offset env).applied q = s.applied q := by
  simp [applied, pump, hne]

theorem appMessage_offset (K : FrameCodec) (offset : ℕ) (env : Envelope) :
    appMessage K offset env = (appMessage K 0 env).map fun m => { m with offset := offset } := by
  unfold appMessage
  cases K.unmarshal env.payload with
  | none => rfl
  | some frame => cases frame <;> rfl

/-- The offset of a message makes no difference to the data. -/
theorem data_pump (offset : ℕ) (h : (s.store p).data =
      ((messages K (s.applied p)).foldl (Store.apply U) (Store.new p true)).data) :
    ((s.pump U K p offset env).store p).data =
      ((messages K (s.applied p ++ [env])).foldl (Store.apply U) (Store.new p true)).data := by
  rw [messages, List.filterMap_append, List.foldl_append, ← messages]
  simp only [pump, Function.update_self, appMessage_offset K offset]
  cases hm : appMessage K 0 env with
  | none => simpa [hm] using h
  | some msg =>
    simp only [List.filterMap_cons, hm, List.filterMap_nil, List.foldl_cons, List.foldl_nil]
    exact data_apply_congr h rfl

theorem Stored.pump (h : Stored U K G s) (henv : (s.net p).delivered[s.passed p]? = some env)
    (offset : ℕ) : Stored U K G (s.pump U K p offset env) := by
  have hlt := (List.getElem?_eq_some_iff.mp henv).1
  refine ⟨h.group, fun q hq => ?_, fun q hq => ?_⟩
  · by_cases hqp : q = p
    · subst hqp
      simp only [KvGroup.pump, Function.update_self]
      omega
    · simpa [KvGroup.pump, hqp] using h.passed q hq
  · by_cases hqp : q = p
    · subst hqp
      rw [data_pump offset (h.data q hq), applied_pump henv]
    · rw [applied_pump_of_ne hqp, ← h.data q hq]
      simp [KvGroup.pump, hqp]

end Stores

section Submissions

/-- The sequence number that a message identity shows to the group. -/
def seqOf (net : Network) (id : MessageID) : ℕ :=
  id.vectorClock.atSlot (net (id.sender.getD [])).selfSlot

theorem fifo_delivered (h : G.Invariant s.net) (hp : p ∈ G.members) :
    (s.net p).delivered.Pairwise fun a b => a.sender = b.sender →
      seqOf s.net a.id < seqOf s.net b.id := by
  have hlive := h.live p hp
  rw [hlive.delivered, List.pairwise_map]
  refine List.Pairwise.imp_of_mem (fun {a b} ha hb hlt hs => ?_) hlive.sound.fifo
  obtain ⟨hq, -⟩ := h.own_node hp ha rfl
  have hseq : ∀ n ∈ (s.net p).graph.nodes, n.envelope.sender ∈ G.members →
      seqOf s.net n.envelope.id = n.senderSeq :=
    fun n hn hm => h.senderSeq_eq hp hm hn rfl
  rw [hseq a ha hq, hseq b hb (hs ▸ hq)]
  exact hlt hs

/-- What a submission keeps for the rest of the run. -/
structure Recorded (U : BatchDecoder) (K : FrameCodec) (G : Group) (net : Network)
    (sub : KvSubmission) : Prop where
  replica : sub.replica ∈ G.members
  sender : sub.envelope.sender = sub.replica
  before : ∃ pre post, (net sub.replica).delivered = pre ++ sub.envelope :: post ∧
    ∀ e ∈ sub.applied, e ∈ pre
  tags : ∀ e ∈ sub.applied, ∀ key, ∀ w ∈ writesAt U K [e] key,
    ∀ w' ∈ writesAt U K [sub.envelope] key, w.entry.tag ≤ w'.entry.tag

theorem Recorded.later {net net' : Network} {sub : KvSubmission} (h : Recorded U K G net sub)
    (hl : G.Later net net') : Recorded U K G net' sub := by
  obtain ⟨pre, post, hsplit, hpre⟩ := h.before
  obtain ⟨rest, hrest⟩ := (hl sub.replica h.replica).delivered
  exact ⟨h.replica, h.sender, ⟨pre, post ++ rest, by simp [← hrest, hsplit], hpre⟩, h.tags⟩

/-- The entry of a store is not below any of the writes it has applied. -/
theorem Stored.exists_entry (h : Stored U K G s) (hp : p ∈ G.members) {e : Envelope}
    (he : e ∈ s.applied p) (hw : w ∈ writesAt U K [e] key) :
    ∃ x ∈ (s.store p).data key, w.entry.tag ≤ x.tag := by
  have hmem : w ∈ writesAt U K (s.applied p) key := mem_writesAt.mpr ⟨e, he, hw⟩
  cases hs : survivorAt U K (s.applied p) key with
  | none =>
    rw [survivor_eq_none_iff.mp hs] at hmem
    cases hmem
  | some w' =>
    have hle := tag_le_survivor hs hmem
    exact ⟨w'.entry, by rw [h.data_eq hp, hs]; rfl, hle⟩

/-- A replica that is ahead sends a write above all that it has applied. -/
theorem Stored.recorded (h : Stored U K G s) {a : NetAction} {net : Network}
    (ha : Ahead U K s (.net a)) (hstep : G.netStep s.net a = some net) :
    ∀ sub ∈ s.submitted a.replica (net a.replica), Recorded U K G net sub := by
  obtain ⟨hs, hahead⟩ := ha
  obtain ⟨hp, -, rfl⟩ := Group.netStep_eq_some hstep
  have heff := (h.group.live _ hp).effect a.request hs
  obtain ⟨p, req⟩ := a
  dsimp only at hs hahead hp heff ⊢
  rw [Function.update_self]
  generalize hc : (s.net p).handle req = c at heff
  intro sub hsub
  cases heff with
  | quiet hq => simp [submitted, hq.issued] at hsub
  | receive hm =>
    have hissued := (hm (fun _ => True) (fun _ _ _ => trivial) trivial).issued
    simp [submitted, hissued] at hsub
  | @issue io payload n log henv hi hslot hlog =>
    have hsub' : sub = ⟨p, n.envelope, s.applied p⟩ := by
      simpa [submitted, broadcastEnvelope] using hsub
    subst hsub'
    have hself : n.envelope.id.sender = some p := by
      rw [(nextEnvelope_eq_some henv).2.1, h.group.self p hp]
    refine ⟨hp, by simp [Envelope.sender, hself], ?_, ?_⟩
    · refine ⟨(s.net p).delivered, [], by simp [broadcastEnvelope], fun e he => ?_⟩
      exact List.mem_of_mem_take he
    · intro e he key w hw w' hw'
      obtain ⟨x, hx, hle⟩ := h.exists_entry hp he hw
      obtain ⟨-, hwave, hsender, hkey, hwrites, hcmd⟩ := eq_of_mem_writesAt hw'
      obtain ⟨vec, -, hvec⟩ := Option.map_eq_some_iff.mp henv
      have hpayload : n.envelope.payload = payload := by rw [← hvec]
      rw [hpayload] at hcmd
      rw [← hkey] at hx
      have htag := hahead payload rfl n.envelope henv w'.cmd hcmd hwrites x hx
      refine hle.trans ?_
      rw [Write.entry, Command.tag_entry, Entry.tag, Prod.Lex.toLex_le_toLex, hwave, hsender,
        Envelope.sender, hself]
      exact htag

/-- All that holds in a run whose writers are ahead. -/
structure Sound (U : BatchDecoder) (K : FrameCodec) (G : Group) (s : KvGroup) : Prop
    extends Stored U K G s where
  recorded : ∀ sub ∈ s.submissions, Recorded U K G s.net sub

theorem Sound.step (h : Sound U K G s) {a : KvAction} (ha : Ahead U K s a)
    (hs : s.step U K G a = some t) : Sound U K G t := by
  cases a with
  | net a =>
    obtain ⟨net, hnet, rfl⟩ := Option.map_eq_some_iff.mp hs
    refine ⟨h.toStored.netStep ha.1 hnet _, fun sub hsub => ?_⟩
    rcases List.mem_append.mp hsub with hold | hnew
    · exact (h.recorded sub hold).later (h.group.later_step ha.1 hnet)
    · exact h.toStored.recorded ha hnet sub hnew
  | pump p offset =>
    rw [KvGroup.step] at hs
    split at hs
    · obtain ⟨env, henv, rfl⟩ := Option.map_eq_some_iff.mp hs
      exact ⟨h.toStored.pump henv offset, h.recorded⟩
    · cases hs

theorem sound_of_reach (hr : Reach (step U K G) (Ahead U K) (initial G) s) : Sound U K G s :=
  hr.invariant (P := Sound U K G) ⟨stored_initial U K G, fun _ h => by cases h⟩
    fun _ _ _ h ha hs => h.step ha hs

end Submissions

section Survivors

variable (hlen : ∀ p ∈ G.members, p.length = Cluster.idLen)

theorem Stored.fifo (h : Stored U K G s) (hp : p ∈ G.members) :
    Fifo (seqOf s.net) (messages K (s.applied p)) := by
  have hpair := (fifo_delivered h.group hp).sublist (List.take_sublist (s.passed p) _)
  rw [Fifo, messages, List.pairwise_filterMap]
  refine hpair.imp fun {a b} hlt m hm m' hm' hs => ?_
  obtain ⟨hid, hsender, -⟩ := appMessage_eq_some (U := fun _ => none) hm
  obtain ⟨hid', hsender', -⟩ := appMessage_eq_some (U := fun _ => none) hm'
  rw [hid, hid']
  exact hlt (by rw [← hsender, ← hsender', hs])

theorem Stored.sender_mem (h : Stored U K G s) (hq : q ∈ G.members) {e : Envelope}
    (he : e ∈ s.applied q) : e.sender ∈ G.members := by
  have hd := List.mem_of_mem_take he
  rw [(h.group.live q hq).delivered] at hd
  obtain ⟨n, hn, rfl⟩ := List.mem_map.mp hd
  exact (h.group.own_node hq hn rfl).1

/-- A replica's own message comes after those that it had applied. -/
theorem Sound.seqOf_lt (h : Sound U K G s) {sub : KvSubmission} (hsub : sub ∈ s.submissions)
    {e : Envelope} (he : e ∈ sub.applied) (hs : e.sender = sub.envelope.sender) :
    seqOf s.net e.id < seqOf s.net sub.envelope.id := by
  have hrec := h.recorded sub hsub
  obtain ⟨pre, post, hsplit, hpre⟩ := hrec.before
  have hfifo := fifo_delivered h.group hrec.replica
  rw [hsplit, List.pairwise_append] at hfifo
  exact hfifo.2.2 e (hpre e he) sub.envelope (by simp) hs

include hlen

/-- The surviving write is the greatest by tag, sequence number and position. -/
theorem Stored.greatest (h : Stored U K G s) (hq : q ∈ G.members)
    (hs : survivorAt U K (s.applied q) key = some w) :
    Greatest (fun w => w.entry.tag) (Write.rank (seqOf s.net)) (writesAt U K (s.applied q) key)
      w := by
  refine greatest_of_survivor ((h.fifo hq).inRankOrder (fun m hm => ?_) key) hs
  obtain ⟨e, he, hme⟩ := List.mem_filterMap.mp hm
  rw [(appMessage_eq_some (U := U) hme).2.1]
  exact hlen _ (h.sender_mem hq he)

/-- The write of an envelope that the submitter had applied does not survive that of the
submission. -/
theorem Sound.id_ne_of_survivor (h : Sound U K G s) {sub : KvSubmission}
    (hsub : sub ∈ s.submissions) {w₁ w₂ : Write} {e₁ : Envelope} (he₁ : e₁ ∈ sub.applied)
    (hw₁ : w₁ ∈ writesAt U K [e₁] key) (hw₂ : w₂ ∈ writesAt U K [sub.envelope] key)
    (hq : q ∈ G.members) (happ : sub.envelope ∈ s.applied q)
    (hs : survivorAt U K (s.applied q) key = some w) : w.id ≠ e₁.id := by
  intro hid
  have hrec := h.recorded sub hsub
  obtain ⟨e, he, hwe⟩ := mem_writesAt.mp (mem_of_survivor hs)
  have hide : e.id = e₁.id := (eq_of_mem_writesAt hwe).1.symm.trans hid
  have hsender : e.sender = e₁.sender := by rw [Envelope.sender, hide, Envelope.sender]
  have hwave : e.wave = e₁.wave := by rw [Envelope.wave, hide, Envelope.wave]
  have hid₂ := (eq_of_mem_writesAt hw₂).1
  have htag : w.entry.tag ≤ w₂.entry.tag := by
    rw [tag_of_mem_writesAt hwe, hsender, hwave, ← tag_of_mem_writesAt hw₁]
    exact hrec.tags e₁ he₁ key w₁ hw₁ w₂ hw₂
  have hlater : e₁.sender = sub.envelope.sender → seqOf s.net w.id < seqOf s.net w₂.id := by
    rw [hid, hid₂]
    exact h.seqOf_lt hsub he₁
  by_cases hne : w₂ = w
  · subst hne
    have hsame : e₁.sender = sub.envelope.sender := by
      rw [Envelope.sender, ← hid, hid₂, Envelope.sender]
    exact lt_irrefl _ (hlater hsame)
  · rcases (h.greatest hlen hq hs).2 w₂ (mem_writesAt.mpr ⟨_, happ, hw₂⟩) hne with
      hlt | ⟨heq, hrank⟩
    · exact absurd hlt (not_lt.mpr htag)
    · have hsame : e₁.sender = sub.envelope.sender := by
        dsimp only at heq
        rw [tag_of_mem_writesAt hwe, tag_of_mem_writesAt hw₂] at heq
        have harr : senderArr sub.envelope.sender = senderArr e.sender :=
          congrArg (fun t => (ofLex t).2) heq
        rw [senderArr_eq (hlen _ (h.sender_mem hq happ)),
          senderArr_eq (hlen _ (h.sender_mem hq he))] at harr
        rw [← hsender, harr]
      have hseq := hlater hsame
      rw [Write.rank, Write.rank, Prod.Lex.toLex_lt_toLex] at hrank
      omega

/-- Where nothing else has written to the key, the last command of the submission is read. -/
theorem Sound.get_eq (h : Sound U K G s) {sub : KvSubmission} (hsub : sub ∈ s.submissions)
    {w₂ : Write} (hw₂ : (writesAt U K [sub.envelope] key).getLast? = some w₂)
    (hq : q ∈ G.members) (happ : sub.envelope ∈ s.applied q)
    (honly : ∀ e ∈ s.applied q, writesAt U K [e] key ≠ [] → e = sub.envelope ∨ e ∈ sub.applied) :
    (s.store q).get key = w₂.entry.live := by
  have hmem₂ : w₂ ∈ writesAt U K [sub.envelope] key := List.mem_of_getLast? hw₂
  have hmem : w₂ ∈ writesAt U K (s.applied q) key := mem_writesAt.mpr ⟨_, happ, hmem₂⟩
  cases hs : survivorAt U K (s.applied q) key with
  | none =>
    rw [survivor_eq_none_iff.mp hs] at hmem
    cases hmem
  | some w =>
    suffices hw : w₂ = w by
      rw [Store.get_eq, h.data_eq hq, hs, hw]
      rfl
    by_contra hne
    obtain ⟨e, he, hwe⟩ := mem_writesAt.mp (mem_of_survivor hs)
    rcases honly e he (List.ne_nil_of_mem hwe) with rfl | hold
    · have hpos : w.pos < w₂.pos := by
        have hpair := pos_writesAt U K sub.envelope key
        obtain ⟨pre, hpre⟩ := List.getLast?_eq_some_iff.mp hw₂
        rw [hpre, List.pairwise_append] at hpair
        rw [hpre, List.mem_append, List.mem_singleton] at hwe
        rcases hwe with hwe | rfl
        · exact hpair.2.2 w hwe w₂ (by simp)
        · exact absurd rfl hne
      have hids : w₂.id = w.id := by rw [(eq_of_mem_writesAt hmem₂).1, (eq_of_mem_writesAt hwe).1]
      rcases (h.greatest hlen hq hs).2 w₂ hmem hne with hlt | ⟨-, hrank⟩
      · dsimp only at hlt
        rw [tag_of_mem_writesAt hwe, tag_of_mem_writesAt hmem₂] at hlt
        exact lt_irrefl _ hlt
      · rw [Write.rank, Write.rank, Prod.Lex.toLex_lt_toLex, hids] at hrank
        omega
    · exact h.id_ne_of_survivor hlen hsub hold hwe hmem₂ hq happ hs (eq_of_mem_writesAt hwe).1

end Survivors

/-- In every run in which whoever submits a write is ahead of the entry that it writes over,
no replica that has applied the submission keeps an entry that its sender had applied before.
Without other writes the last command of the submission is what `Get` returns. -/
theorem overwritten_entries_never_survive (hlen : ∀ p ∈ G.members, p.length = Cluster.idLen)
    (hr : Reach (step U K G) (Ahead U K) (initial G) s) :
    ∀ sub ∈ s.submissions, ∀ key, ∀ w₂ ∈ (writesAt U K [sub.envelope] key).getLast?,
      ∀ q ∈ G.members, sub.envelope ∈ s.applied q →
        (s.store q).data key = (survivorAt U K (s.applied q) key).map Write.entry ∧
        (∀ e₁ ∈ sub.applied, writesAt U K [e₁] key ≠ [] → e₁ ∈ s.applied q →
          ∀ w ∈ survivorAt U K (s.applied q) key, w.id ≠ e₁.id) ∧
        ((∀ e ∈ s.applied q, writesAt U K [e] key ≠ [] → e = sub.envelope ∨ e ∈ sub.applied) →
          (s.store q).get key = w₂.entry.live) := by
  intro sub hsub key w₂ hw₂ q hq happ
  have h := sound_of_reach hr
  refine ⟨h.toStored.data_eq hq key, fun e₁ he₁ hwrites _ w hw => ?_,
    h.get_eq hlen hsub hw₂ hq happ⟩
  obtain ⟨w₁, hw₁⟩ := List.exists_mem_of_ne_nil _ hwrites
  exact h.id_ne_of_survivor hlen hsub he₁ hw₁ (List.mem_of_getLast? hw₂) hq happ hw

/-- Two replicas, of which the first has the smaller bytes. -/
def pairOf : Group := ⟨[0], [replicaOf 1, replicaOf 2]⟩

/-- One replica sets the key, and the other sets it again after it has applied that. -/
def answeredBy (first second : UInt8) (vec : VectorClock) : List KvAction :=
  [.net ⟨replicaOf first, .send .standard [1, 1]⟩,
    .net ⟨replicaOf second, .incoming .standard (replicaOf first)
      (.envelope ⟨⟨some [0], some (replicaOf first), vec⟩, [1, 1]⟩)⟩,
    .pump (replicaOf second) 1, .net ⟨replicaOf second, .send .standard [1, 2]⟩,
    .pump (replicaOf second) 2]

/-- The second replica has the larger bytes. -/
theorem overwritten_entries_never_survive_ascending :
    ∃ s, Reach (step byteCommands .tagged pairOf) (Ahead byteCommands .tagged) (initial pairOf) s ∧
      (∃ sub ∈ s.submissions, (∃ e₁ ∈ sub.applied, writesAt byteCommands .tagged [e₁] "k" ≠ [] ∧
        e₁ ∈ s.applied (replicaOf 2)) ∧ sub.envelope ∈ s.applied (replicaOf 2) ∧
        (s.store (replicaOf 2)).get "k" = some "new") ∧
      ∀ sub ∈ s.submissions, ∀ key,
        ∀ w₂ ∈ (writesAt byteCommands .tagged [sub.envelope] key).getLast?,
        ∀ q ∈ pairOf.members, sub.envelope ∈ s.applied q →
          (s.store q).data key =
            (survivorAt byteCommands .tagged (s.applied q) key).map Write.entry ∧
          (∀ e₁ ∈ sub.applied, writesAt byteCommands .tagged [e₁] key ≠ [] → e₁ ∈ s.applied q →
            ∀ w ∈ survivorAt byteCommands .tagged (s.applied q) key, w.id ≠ e₁.id) ∧
          ((∀ e ∈ s.applied q, writesAt byteCommands .tagged [e] key ≠ [] →
              e = sub.envelope ∨ e ∈ sub.applied) → (s.store q).get key = w₂.entry.live) := by
  have hrun : (execute (step byteCommands .tagged pairOf) (Ahead byteCommands .tagged)
      (initial pairOf) (answeredBy 1 2 [1, 0])).map (fun s => decide (∃ sub ∈ s.submissions,
        (∃ e₁ ∈ sub.applied, writesAt byteCommands .tagged [e₁] "k" ≠ [] ∧
          e₁ ∈ s.applied (replicaOf 2)) ∧ sub.envelope ∈ s.applied (replicaOf 2) ∧
        (s.store (replicaOf 2)).get "k" = some "new")) = some true := by decide +kernel
  obtain ⟨s, -, hr, hs⟩ := reach_of_execute hrun
  exact ⟨s, hr, of_decide_eq_true hs, overwritten_entries_never_survive (by decide) hr⟩

/-- The second replica has the smaller bytes: its write has the wave of the one that it
answers, and the replica reads the old value after it has set the new one. -/
theorem later_write_is_lost :
    ∃ s, Reach (step byteCommands .tagged pairOf) (fun _ _ => True) (initial pairOf) s ∧
      ∃ sub ∈ s.submissions, sub.replica = replicaOf 1 ∧
        ((writesAt byteCommands .tagged [sub.envelope] "k").getLast?.map fun w => w.cmd) =
          some ⟨.set, "k", "new"⟩ ∧
        sub.envelope ∈ s.applied (replicaOf 1) ∧
        ∃ e₁ ∈ sub.applied, writesAt byteCommands .tagged [e₁] "k" ≠ [] ∧
          (∀ e ∈ s.applied (replicaOf 1), e = e₁ ∨ e = sub.envelope) ∧
          (survivorAt byteCommands .tagged (s.applied (replicaOf 1)) "k").map Write.id =
            some e₁.id ∧
          (s.store (replicaOf 1)).get "k" = some "old" := by
  have hrun : (execute (step byteCommands .tagged pairOf) (fun _ _ => True)
      (initial pairOf) (answeredBy 2 1 [0, 1])).map (fun s => decide (∃ sub ∈ s.submissions,
        sub.replica = replicaOf 1 ∧
        ((writesAt byteCommands .tagged [sub.envelope] "k").getLast?.map fun w => w.cmd) =
          some ⟨.set, "k", "new"⟩ ∧
        sub.envelope ∈ s.applied (replicaOf 1) ∧
        ∃ e₁ ∈ sub.applied, writesAt byteCommands .tagged [e₁] "k" ≠ [] ∧
          (∀ e ∈ s.applied (replicaOf 1), e = e₁ ∨ e = sub.envelope) ∧
          (survivorAt byteCommands .tagged (s.applied (replicaOf 1)) "k").map Write.id =
            some e₁.id ∧
          (s.store (replicaOf 1)).get "k" = some "old")) = some true := by decide +kernel
  obtain ⟨s, -, hr, hs⟩ := reach_of_execute hrun
  exact ⟨s, hr, of_decide_eq_true hs⟩

end KvGroup

end Comlink
