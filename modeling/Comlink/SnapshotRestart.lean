import Comlink.LogReplay
import Comlink.OrderedReplica

/-!
# Restarts from a snapshot and the log

A replica under the partial order takes snapshots of its state machine, each reported
with the offset of the last message in it, and restarts from the newest one over its own
log. `inside` is what the running process was restored from and `saved` what the newest
snapshot holds, so that the state machine has seen `inside` and then what was applied.

While every append succeeds, the log holds the nodes of the graph in their order, the
replay rebuilds it, and offsets count deliveries. The state machine has then seen the
application messages of a first part of the log, except that the message at offset zero
never counts as covered by a snapshot.
-/
namespace Comlink
open GuardedRuns

namespace Conversation

variable {c : Conversation} {members : List ReplicaID}

theorem Full.handle (hf : Full c) (h : Live members c) {req : Request}
    (hs : req.isStatic = true) (ha : req.AppendsSucceed) : Full (c.handle req) :=
  hf.effect (h.effect req hs) ha

/-- A process that has just started over the log of a graph is live once it has replayed
it. -/
theorem replayLog_full (h : Seated members c) (hg : c.graph.nodes = [])
    (hd : c.delivered = []) (hfirst : c.log.firstOffset = 0) {ns : List Node}
    (hns : c.log.frames = ns.map Node.frame) (hsound : Graph.Sound c.membership ⟨ns⟩) :
    Live members c.replayLog ∧ Full c.replayLog := by
  have hreplay := handleReplay_of_frames hg hfirst hns hsound
  have hlog : c.replayLog =
      { c with graph := ⟨ns⟩, delivered := ns.map Node.envelope } := by
    rw [replayLog, hreplay, hd, List.nil_append]
  rw [hlog]
  exact ⟨⟨⟨h.members_eq, h.slot, hsound⟩, rfl, hns ▸ List.Sublist.refl _⟩, hns⟩

end Conversation

/-- The application messages among log entries, by identity and offset. -/
def appEntries (K : FrameCodec) (fs : List (LogFrame × ℕ)) : List (MessageID × ℕ) :=
  (fs.filter fun x => K.isApp x.1.envelope.payload).map fun x => (x.1.envelope.id, x.2)

def Message.entry (m : Message) : MessageID × ℕ := (m.id, m.offset)

def MessageLog.indexed (l : MessageLog) : List (LogFrame × ℕ) := l.frames.zipIdx

section Entries

variable {K : FrameCodec}

theorem appEntries_append (fs gs : List (LogFrame × ℕ)) :
    appEntries K (fs ++ gs) = appEntries K fs ++ appEntries K gs := by simp [appEntries]

theorem mem_appEntries {fs : List (LogFrame × ℕ)} {f : LogFrame} {i : ℕ} (h : (f, i) ∈ fs)
    (hf : K.isApp f.envelope.payload = true) : (f.envelope.id, i) ∈ appEntries K fs :=
  List.mem_map.mpr ⟨(f, i), List.mem_filter.mpr ⟨h, hf⟩, rfl⟩

theorem getElem?_indexed (l : MessageLog) (i : ℕ) :
    l.indexed[i]? = l.frames[i]?.map fun f => (f, i) := by
  simp [MessageLog.indexed, List.getElem?_zipIdx]

theorem mem_take_indexed {l : MessageLog} {f : LogFrame} {i m : ℕ} :
    (f, i) ∈ l.indexed.take m ↔ i < m ∧ l.frames[i]? = some f := by
  rw [List.mem_iff_getElem?]
  constructor
  · rintro ⟨j, hj⟩
    rw [List.getElem?_take] at hj
    split at hj
    · rename_i hjm
      rw [getElem?_indexed] at hj
      obtain ⟨g, hg, he⟩ := Option.map_eq_some_iff.mp hj
      cases he
      exact ⟨hjm, hg⟩
    · cases hj
  · rintro ⟨him, hf⟩
    refine ⟨i, ?_⟩
    rw [List.getElem?_take, if_pos him, getElem?_indexed, hf]
    rfl

theorem MessageLog.pairwise_indexed (l : MessageLog) :
    l.indexed.Pairwise fun x y => x.2 < y.2 := by
  have hsorted : (l.indexed.map Prod.snd).Pairwise (· < ·) := by
    rw [MessageLog.indexed, List.zipIdx_map_snd]
    exact List.pairwise_lt_range'
  exact List.pairwise_map.mp hsorted

/-- The last entry of a first part of the log has the largest offset. -/
theorem offset_le_last {l : MessageLog} {m : ℕ} {last : MessageID × ℕ}
    (hlast : (appEntries K (l.indexed.take m)).getLast? = some last) {x : MessageID × ℕ}
    (hx : x ∈ appEntries K (l.indexed.take m)) : x.2 ≤ last.2 := by
  have hpw : (appEntries K (l.indexed.take m)).Pairwise fun x y => x.2 < y.2 := by
    rw [appEntries, List.pairwise_map]
    exact l.pairwise_indexed.sublist (List.filter_sublist.trans (List.take_sublist _ _))
  obtain ⟨init, hinit⟩ := List.getLast?_eq_some_iff.mp hlast
  rw [hinit] at hpw hx
  rcases List.mem_append.mp hx with hx | hx
  · exact ((List.pairwise_append.mp hpw).2.2 x hx last (List.mem_singleton.mpr rfl)).le
  · rw [List.mem_singleton.mp hx]

theorem take_indexed_eq {l l' : MessageLog} (hf : l.frames <+: l'.frames) {m : ℕ}
    (hm : m ≤ l.frames.length) : l'.indexed.take m = l.indexed.take m := by
  obtain ⟨rest, hrest⟩ := hf
  rw [MessageLog.indexed, MessageLog.indexed, ← hrest, List.zipIdx_append]
  exact List.take_append_of_le_length (by rwa [List.length_zipIdx])

theorem fst_appEntries (l : MessageLog) : (appEntries K l.indexed).map Prod.fst =
    (l.frames.filter fun f => K.isApp f.envelope.payload).map fun f => f.envelope.id := by
  have hfst : l.frames = l.indexed.map Prod.fst := (List.zipIdx_map_fst ..).symm
  rw [hfst, List.filter_map, List.map_map, appEntries, List.map_map]
  rfl

/-- One more entry of the log, beyond the first `m`. -/
theorem appEntries_next {l : MessageLog} {c : ℕ} {f : LogFrame} (hf : l.frames[c]? = some f)
    (m : ℕ) : appEntries K ((l.indexed.take (c + 1)).drop m) =
      appEntries K ((l.indexed.take c).drop m) ++
        if m ≤ c ∧ K.isApp f.envelope.payload = true then [(f.envelope.id, c)] else [] := by
  have hc : c < l.indexed.length := by
    rw [MessageLog.indexed, List.length_zipIdx]
    exact (List.getElem?_eq_some_iff.mp hf).1
  have hlen : (l.indexed.take c).length = c := by
    rw [List.length_take]
    omega
  rw [List.take_add_one, getElem?_indexed, hf]
  by_cases hm : m ≤ c
  · rw [List.drop_append_of_le_length (by omega), appEntries_append]
    by_cases ha : K.isApp f.envelope.payload = true <;> simp [appEntries, hm, ha]
  · rw [List.drop_of_length_le (by simp; omega), List.drop_of_length_le (by omega)]
    simp [hm, appEntries]

end Entries

structure SnapshotLife where
  replica : Replica
  inside : List Message
  saved : List Message
  replayed : Bool

inductive SnapshotAction where
  | run (a : ReplicaAction)
  | snapshot
  | restart

def ReplicaAction.isReplay : ReplicaAction → Bool
  | .request .replayLog => true
  | _ => false

/-- The step is a request to the conversation or a send of the substrate. -/
def ReplicaAction.usesConversation : ReplicaAction → Bool
  | .request _ | .publish _ _ => true
  | _ => false

/-- No append fails during the step. -/
def ReplicaAction.AppendsSucceed : ReplicaAction → Prop
  | .request req => req.AppendsSucceed
  | .publish io _ => ∀ k, io.appendOk k = true
  | _ => True

namespace SnapshotLife
open Conversation

variable {K : FrameCodec} {G : Group} {p : ReplicaID} {s t : SnapshotLife}
variable {a : SnapshotAction} {members : List ReplicaID}

def start (G : Group) (p : ReplicaID) : SnapshotLife :=
  ⟨Replica.start G p .partialOrder 0, [], [], true⟩

/-- What the state machine has seen. -/
def content (s : SnapshotLife) : List Message := s.inside ++ s.replica.sub.applied

def step (K : FrameCodec) (G : Group) (p : ReplicaID) (s : SnapshotLife) :
    SnapshotAction → Option SnapshotLife
  | .run a => (s.replica.step K a).map fun r =>
      { s with replica := r, replayed := s.replayed || a.isReplay }
  | .snapshot => some { s with saved := s.content }
  | .restart => some
      { replica := Replica.boot G p .partialOrder (throughOffset s.saved) s.replica.conv.mask
          s.replica.conv.log
        inside := s.saved
        saved := s.saved
        replayed := false }

/-- The member list is fixed and the log untrimmed, and a new process replays its log
before it handles or sends anything. -/
def Orderly (s : SnapshotLife) : SnapshotAction → Prop
  | .run a => s.replica.Static a ∧ s.replica.conv.log.firstOffset = 0 ∧
      (s.replayed = true ∨ a.isReplay = true ∨ a.usesConversation = false)
  | _ => True

def AppendsSucceed : SnapshotAction → Prop
  | .run a => a.AppendsSucceed
  | _ => True

/-- The snapshot to restart from does not hold the message at offset zero. -/
def ZeroUncovered (K : FrameCodec) (s : SnapshotLife) : SnapshotAction → Prop
  | .restart => ∀ f ∈ s.replica.conv.log.frames.head?, K.isApp f.envelope.payload = true →
      f.envelope.id ∉ s.saved.map Message.id
  | _ => True

/-- Every delivered message, and so the whole log once it is replayed, was handed to the
apply pump. -/
def Drained (s : SnapshotLife) : Prop :=
  s.replayed = true ∧ s.replica.consumed = s.replica.conv.delivered.length

/-- Every application message in the log is in the state machine once. -/
def ExactlyOnce (K : FrameCodec) (s : SnapshotLife) : Prop :=
  ∀ f ∈ s.replica.conv.log.frames, K.isApp f.envelope.payload = true →
    (s.content.map Message.id).count f.envelope.id = 1

/-- A process whose graph and log are the same. -/
structure Running (members : List ReplicaID) (r : Replica) : Prop
    extends Replica.Invariant members r where
  full : Full r.conv
  forwarding : ∃ out, r.ord = .partialOrder out

/-- A process that has not replayed its log yet. -/
structure Booted (members : List ReplicaID) (r : Replica) : Prop where
  seated : Seated members r.conv
  nodes : r.conv.graph.nodes = []
  delivered : r.conv.delivered = []
  ord : r.ord = .partialOrder []
  consumed : r.consumed = 0
  members : r.sub.members = members
  rebuilds : ∃ ns, r.conv.log.frames = ns.map Node.frame ∧ Graph.Sound r.conv.membership ⟨ns⟩

/-- The process was restored from the first `m` entries of the log, and covers them. -/
structure Restored (K : FrameCodec) (m : ℕ) (inside : List Message) (r : Replica) : Prop where
  le : m ≤ r.conv.log.frames.length
  restored : inside.map Message.entry = appEntries K (r.conv.log.indexed.take m)
  bound : r.sub.snapshotThrough ≠ 0 → r.sub.snapshotThrough < m
  reach : ∀ i < m, ∀ f, r.conv.log.frames[i]? = some f → K.isApp f.envelope.payload = true →
    r.sub.Covered i

/-- Beyond them, the state machine has seen the entries up to the apply pump. -/
structure Content (K : FrameCodec) (m : ℕ) (inside : List Message) (r : Replica) : Prop
    extends Restored K m inside r where
  applied : r.sub.applied.map Message.entry =
    appEntries K ((r.conv.log.indexed.take r.consumed).drop m)

structure Invariant (K : FrameCodec) (members : List ReplicaID) (s : SnapshotLife) : Prop where
  process : (s.replayed = true ∧ Running members s.replica) ∨
    (s.replayed = false ∧ Booted members s.replica)
  content : ∃ m, Content K m s.inside s.replica
  saved : ∃ m ≤ s.replica.conv.log.frames.length,
    s.saved.map Message.entry = appEntries K (s.replica.conv.log.indexed.take m)

theorem invariant_start (hp : p ∈ G.members) : Invariant K G.members (start G p) := by
  refine ⟨Or.inl ⟨rfl, Replica.invariant_start hp _ 0, rfl, [], rfl⟩, ⟨0, ?_⟩, 0,
    Nat.zero_le _, rfl⟩
  exact ⟨⟨Nat.zero_le _, rfl, fun h => absurd rfl h, fun i hi => absurd hi (Nat.not_lt_zero i)⟩,
    rfl⟩

section Running

variable {r r' : Replica} {ra : ReplicaAction} {m : ℕ} {inside : List Message}

theorem Running.consumed_le (h : Running members r) :
    r.consumed ≤ r.conv.log.frames.length := by
  obtain ⟨out, ho⟩ := h.forwarding
  have hle := h.consumed
  have hpre := (h.forwards out ho).length_le
  have hemit : r.ord.emitted = out := by rw [ho]; rfl
  rw [h.live.delivered, List.length_map] at hpre
  rw [hemit] at hle
  rw [h.full, List.length_map]
  omega

theorem Running.step (h : Running members r) (hs : r.Static ra) (ha : ra.AppendsSucceed)
    (he : Replica.Effect K r ra r') : Running members r' := by
  refine ⟨h.toInvariant.step hs he, ?_, Replica.forwarding_step h.forwarding he⟩
  rcases he.conv with hc | ⟨req, hc, hreq⟩
  · rw [hc]
    exact h.full
  · rw [hc]
    refine h.full.handle h.live (hreq.isStatic hs) ?_
    cases hreq with
    | request req => exact ha
    | truncateLog f => trivial
    | watermark hm => exact ha

/-- The next message is the entry of the log that the apply pump has come to. -/
theorem Running.next_frame (h : Running members r) {env : Envelope}
    (henv : r.ord.emitted[r.consumed]? = some env) : ∃ n ∈ r.conv.graph.nodes,
      n.envelope = env ∧ r.conv.log.frames[r.consumed]? = some n.frame := by
  obtain ⟨out, ho⟩ := h.forwarding
  obtain ⟨pre, n, post, hg, rfl, hhanded⟩ := h.next_node ho henv
  have hlen : pre.length = r.consumed := by
    rw [← h.length_handed, hhanded, List.length_map]
  refine ⟨n, ?_, rfl, ?_⟩
  · rw [hg]
    exact List.mem_append_right _ (List.mem_cons_self ..)
  · rw [h.full, hg, List.map_append, List.map_cons,
      List.getElem?_append_right (by simp [hlen])]
    simp [hlen]

theorem Running.offset_eq (h : Running members r) (hn : members.Nodup)
    (hfirst : r.conv.log.firstOffset = 0) {n : Node} {k : Key} {i : ℕ}
    (hmem : n ∈ r.conv.graph.nodes) (hframe : r.conv.log.frames[i]? = some n.frame)
    (hk : r.sub.keyOf n.envelope = some k) : Substrate.localOffset r.conv.log k = i := by
  have hkey : n.frame.key = k := by
    obtain ⟨j, _, hj, hkey⟩ := h.keyOf_node hmem
    have hd := h.live.sound.derived n hmem
    have hslot := Membership.slotOf_getElem? hd.slot
    rw [h.live.members_eq] at hj hslot
    have hjs : j = n.senderSlot := by
      obtain ⟨hjl, hje⟩ := List.getElem?_eq_some_iff.mp hj
      obtain ⟨hsl, hse⟩ := List.getElem?_eq_some_iff.mp hslot
      exact (List.Nodup.getElem_inj_iff hn).mp (hje.trans hse.symm)
    rw [hjs, hd.seq, hk] at hkey
    exact (Option.some.inj hkey).symm
  have hlookup := MessageLog.lookupBySender_of_nodup h.live.nodup_frameKeys hframe (by omega)
  rw [hkey] at hlookup
  rw [Substrate.localOffset, hlookup]
  rfl

theorem Restored.grow (h : Restored K m inside r)
    (hf : r.conv.log.frames <+: r'.conv.log.frames)
    (ht : r'.sub.snapshotThrough = r.sub.snapshotThrough) : Restored K m inside r' := by
  refine ⟨h.le.trans hf.length_le, ?_, ?_, ?_⟩
  · rw [take_indexed_eq hf h.le]
    exact h.restored
  · rw [ht]
    exact h.bound
  · intro i hi f hfi hfa
    rw [Substrate.Covered, ht]
    refine h.reach i hi f ?_ hfa
    obtain ⟨rest, hrest⟩ := hf
    rw [← hrest, List.getElem?_append_left (hi.trans_le h.le)] at hfi
    exact hfi

/-- The restored messages are just those that the snapshot covers. -/
theorem Restored.covered_iff (h : Restored K m inside r) {i : ℕ} {f : LogFrame}
    (hf : r.conv.log.frames[i]? = some f) (hfa : K.isApp f.envelope.payload = true) :
    r.sub.Covered i ↔ i < m := by
  constructor
  · rintro ⟨hne, hle⟩
    exact hle.trans_lt (h.bound (by omega))
  · exact fun hi => h.reach i hi f hf hfa

theorem Content.idle (h : Content K m inside r) (hle : r.consumed ≤ r.conv.log.frames.length)
    (hf : r.conv.log.frames <+: r'.conv.log.frames) (hc : r'.consumed = r.consumed)
    (hr : r.sub.SameRecords r'.sub) : Content K m inside r' := by
  refine ⟨h.toRestored.grow hf hr.snapshotThrough, ?_⟩
  rw [hr.applied, hc, take_indexed_eq hf hle]
  exact h.applied

/-- The apply pump handles the entry that it has come to. -/
theorem Content.next (h : Content K m inside r)
    (hf : r.conv.log.frames <+: r'.conv.log.frames) (hc : r'.consumed = r.consumed + 1)
    (ht : r'.sub.snapshotThrough = r.sub.snapshotThrough) {f : LogFrame}
    (hframe : r.conv.log.frames[r.consumed]? = some f)
    (happ : r'.sub.applied.map Message.entry = r.sub.applied.map Message.entry ++
      if m ≤ r.consumed ∧ K.isApp f.envelope.payload = true then [(f.envelope.id, r.consumed)]
      else []) : Content K m inside r' := by
  refine ⟨h.toRestored.grow hf ht, ?_⟩
  have hlt := (List.getElem?_eq_some_iff.mp hframe).1
  rw [happ, hc, take_indexed_eq hf hlt, appEntries_next hframe, h.applied]

theorem Content.step (h : Content K m inside r) (hr : Running members r) (hn : members.Nodup)
    (hfirst : r.conv.log.firstOffset = 0) (hs : r.Static ra)
    (he : Replica.Effect K r ra r') : Content K m inside r' := by
  have hframes := (hr.conv_step hs he).2.frames
  have hlen := (hr.toInvariant.step hs he).length_handed
  have hcount := hr.length_handed
  cases hr.progress he with
  | idle hh hrec =>
    refine h.idle hr.consumed_le hframes ?_ hrec
    rw [← hlen, hh, hcount]
  | skip ha henv hh happ hrec =>
    obtain ⟨n, _, rfl, hframe⟩ := hr.next_frame henv
    refine h.next hframes ?_ hrec.snapshotThrough hframe ?_
    · rw [← hlen, hh, List.length_append, hcount, List.length_singleton]
    · rw [hrec.applied]
      simp [Node.frame, happ]
  | @message env payload k ha henv hh happ hk hlog hsub =>
    obtain ⟨n, hmem, rfl, hframe⟩ := hr.next_frame henv
    have hoff := hr.offset_eq hn hfirst hmem hframe hk
    have hisApp : K.isApp n.frame.envelope.payload = true :=
      Substrate.isApp_iff.mpr ⟨payload, happ⟩
    have hcov := h.toRestored.covered_iff hframe hisApp
    refine h.next hframes ?_ (by rw [hsub]; simp) hframe ?_
    · rw [← hlen, hh, List.length_append, hcount, List.length_singleton]
    · rw [hsub, Substrate.applied_applyMessage, hoff]
      by_cases hc : r.consumed < m
      · rw [if_pos (hcov.mpr hc), if_neg (by omega), List.append_nil]
      · rw [if_neg (fun hcovered => hc (hcov.mp hcovered)), if_pos ⟨by omega, hisApp⟩,
          List.map_append]
        rfl

end Running

section Booted

variable {r r' : Replica} {ra : ReplicaAction} {m : ℕ} {inside : List Message}

/-- Before the replay there is nothing to forward or to apply. -/
theorem Booted.step (h : Booted members r) (hra : ra.usesConversation = false)
    (he : Replica.Effect K r ra r') :
    Booted members r' ∧ r'.conv.log.frames = r.conv.log.frames ∧ r'.consumed = r.consumed ∧
      r.sub.SameRecords r'.sub := by
  have hemit : r.ord.emitted = [] := by rw [h.ord]; rfl
  cases he with
  | request req => cases hra
  | order hp =>
    rw [h.ord] at hp
    rcases OrderLayer.pump_cases hp with ⟨out, env, hl, henv, _⟩ | ⟨_, _, _, hl, _⟩ |
      ⟨_, _, _, hl, _⟩
    · cases hl
      rw [h.delivered] at henv
      cases henv
    · cases hl
    · cases hl
  | apply henv _ =>
    rw [hemit] at henv
    cases henv
  | wait hw =>
    refine ⟨⟨h.seated, h.nodes, h.delivered, h.ord, h.consumed, ?_, h.rebuilds⟩, rfl, rfl,
      hw.sameRecords⟩
    rw [hw.frame]
    exact h.members
  | advance through =>
    rw [Substrate.advanceSnapshotWatermark_eq]
    exact ⟨⟨h.seated, h.nodes, h.delivered, h.ord, h.consumed, h.members, h.rebuilds⟩, rfl, rfl,
      rfl, rfl, rfl, fun _ hk => hk, fun _ hk => Or.inl hk⟩
  | publish hm => cases hra
  | trim =>
    have hframes : (r.sub.maybeTrim r.conv.log).frames = r.conv.log.frames := by
      rcases r.sub.maybeTrim_cases r.conv.log with he | ⟨f, _, he⟩
      · rw [he]
      · rw [he, MessageLog.frames_truncate]
    obtain ⟨ns, hns, hsound⟩ := h.rebuilds
    exact ⟨⟨⟨h.seated.members_eq, h.seated.slot, h.seated.sound⟩, h.nodes, h.delivered, h.ord,
      h.consumed, h.members, ns, hframes.trans hns, hsound⟩, hframes, rfl, rfl, rfl, rfl,
      fun _ hk => hk, fun _ hk => Or.inl hk⟩

theorem Booted.replay (h : Booted members r) (hfirst : r.conv.log.firstOffset = 0) :
    Running members { r with conv := r.conv.replayLog } := by
  obtain ⟨ns, hns, hsound⟩ := h.rebuilds
  obtain ⟨hlive, hfull⟩ := replayLog_full h.seated h.nodes h.delivered hfirst hns hsound
  refine ⟨⟨hlive, h.members, ?_, ?_, ?_⟩, hfull, ⟨[], h.ord⟩⟩
  · rw [h.ord]
    exact nofun
  · intro out ho
    rw [h.ord] at ho
    cases ho
    exact List.nil_prefix
  · exact h.consumed.trans_le (Nat.zero_le _)

theorem frames_replayLog (h : Booted members r) :
    r.conv.replayLog.log = r.conv.log := by
  obtain ⟨ns, heq, _⟩ := replayLog_eq h.seated.sound
  rw [heq]

end Booted

section Snapshots

variable {log : MessageLog} {m : ℕ} {saved : List Message}

theorem throughOffset_eq (saved : List Message) : throughOffset saved =
    ((saved.map Message.entry).getLast?.map Prod.snd).getD 0 := by
  rw [throughOffset, List.getLast?_map, Option.map_map]
  rfl

theorem throughOffset_lt (hs : saved.map Message.entry = appEntries K (log.indexed.take m))
    (hne : throughOffset saved ≠ 0) : throughOffset saved < m := by
  rw [throughOffset_eq, hs] at hne ⊢
  cases hlast : (appEntries K (log.indexed.take m)).getLast? with
  | none => simp [hlast] at hne
  | some last =>
    obtain ⟨⟨f, i⟩, hx, he⟩ := List.mem_map.mp (List.mem_of_getLast? hlast)
    have hi := (mem_take_indexed.mp (List.mem_filter.mp hx).1).1
    rw [← he]
    exact hi

theorem le_throughOffset (hs : saved.map Message.entry = appEntries K (log.indexed.take m))
    {i : ℕ} {f : LogFrame} (hi : i < m) (hf : log.frames[i]? = some f)
    (hfa : K.isApp f.envelope.payload = true) :
    i ≤ throughOffset saved ∧ f.envelope.id ∈ saved.map Message.id := by
  have hmem : (f.envelope.id, i) ∈ appEntries K (log.indexed.take m) :=
    mem_appEntries (mem_take_indexed.mpr ⟨hi, hf⟩) hfa
  constructor
  · cases hlast : (appEntries K (log.indexed.take m)).getLast? with
    | none =>
      rw [List.getLast?_eq_none_iff.mp hlast] at hmem
      cases hmem
    | some last =>
      rw [throughOffset_eq, hs, hlast]
      exact offset_le_last hlast hmem
  · rw [← hs] at hmem
    obtain ⟨msg, hmsg, he⟩ := List.mem_map.mp hmem
    exact List.mem_map.mpr ⟨msg, hmsg, congrArg Prod.fst he⟩

theorem Content.all {inside : List Message} {r : Replica} (h : Content K m inside r) :
    (inside ++ r.sub.applied).map Message.entry =
      appEntries K (r.conv.log.indexed.take (max m r.consumed)) := by
  rw [List.map_append, h.restored, h.applied, ← appEntries_append]
  rcases Nat.le_total m r.consumed with hle | hle
  · rw [max_eq_right hle]
    have htake : r.conv.log.indexed.take m = (r.conv.log.indexed.take r.consumed).take m := by
      rw [List.take_take, Nat.min_eq_left hle]
    rw [htake, List.take_append_drop]
  · rw [max_eq_left hle, List.drop_of_length_le ((List.length_take_le _ _).trans hle),
      List.append_nil]

end Snapshots

/-- Either way the process has handled no more than the log. -/
theorem Invariant.consumed_le (h : Invariant K members s) :
    s.replica.consumed ≤ s.replica.conv.log.frames.length := by
  rcases h.process with ⟨_, hr⟩ | ⟨_, hb⟩
  · exact hr.consumed_le
  · rw [hb.consumed]
    exact Nat.zero_le _

theorem Invariant.saved_grow (h : Invariant K members s) {log : MessageLog}
    (hf : s.replica.conv.log.frames <+: log.frames) : ∃ m ≤ log.frames.length,
      s.saved.map Message.entry = appEntries K (log.indexed.take m) := by
  obtain ⟨m, hm, hs⟩ := h.saved
  refine ⟨m, hm.trans hf.length_le, ?_⟩
  rw [take_indexed_eq hf hm]
  exact hs

theorem Invariant.run (h : Invariant K members s) (hn : members.Nodup) {ra : ReplicaAction}
    {r : Replica} (ho : Orderly s (.run ra)) (ha : ra.AppendsSucceed)
    (hstep : s.replica.step K ra = some r) : Invariant K members
      { s with replica := r, replayed := s.replayed || ra.isReplay } := by
  obtain ⟨hstatic, hfirst, hfresh⟩ := ho
  have he := Replica.step_effect hstep
  obtain ⟨m, hm⟩ := h.content
  rcases h.process with ⟨hrep, hrun⟩ | ⟨hrep, hboot⟩
  · have hframes := (hrun.conv_step hstatic he).2.frames
    refine ⟨Or.inl ⟨by simp [hrep], hrun.step hstatic ha he⟩, ⟨m, ?_⟩, h.saved_grow hframes⟩
    exact hm.step hrun hn hfirst hstatic he
  · rcases hfresh with htrue | hreplay | huses
    · rw [hrep] at htrue
      cases htrue
    · have hra : ra = .request .replayLog := by
        unfold ReplicaAction.isReplay at hreplay
        split at hreplay
        · rfl
        · cases hreplay
      subst hra
      cases hstep
      have hlog : (s.replica.conv.handle .replayLog).log = s.replica.conv.log :=
        frames_replayLog hboot
      have hpre : s.replica.conv.log.frames <+: (s.replica.conv.handle .replayLog).log.frames := by
        rw [hlog]
      refine ⟨Or.inl ⟨by simp [ReplicaAction.isReplay], hboot.replay hfirst⟩, ⟨m, ?_⟩,
        h.saved_grow hpre⟩
      exact hm.idle h.consumed_le hpre rfl (Substrate.SameRecords.refl _)
    · obtain ⟨hboot', hframes, hconsumed, hrec⟩ := hboot.step huses he
      have hpre : s.replica.conv.log.frames <+: r.conv.log.frames := by rw [hframes]
      have hnot : ra.isReplay = false := by
        unfold ReplicaAction.isReplay
        split
        · cases huses
        · rfl
      refine ⟨Or.inr ⟨by simp [hrep, hnot], hboot'⟩, ⟨m, ?_⟩, h.saved_grow hpre⟩
      exact hm.idle h.consumed_le hpre hconsumed hrec

theorem Invariant.snapshot (h : Invariant K members s) :
    Invariant K members { s with saved := s.content } := by
  obtain ⟨m, hm⟩ := h.content
  refine ⟨h.process, ⟨m, hm⟩, max m s.replica.consumed, ?_, hm.all⟩
  exact max_le hm.le h.consumed_le

theorem Invariant.rebuilds (h : Invariant K members s) : ∃ ns,
    s.replica.conv.log.frames = ns.map Node.frame ∧
      Graph.Sound (Membership.ofReplicas members) ⟨ns⟩ := by
  have hcongr : ∀ {c : Conversation} {ns : List Node}, c.membership.allReplicas = members →
      Graph.Sound c.membership ⟨ns⟩ → Graph.Sound (Membership.ofReplicas members) ⟨ns⟩ :=
    fun hm hsound => hsound.congr ((Membership.allReplicas_ofReplicas members).trans hm.symm)
  rcases h.process with ⟨_, hr⟩ | ⟨_, hb⟩
  · exact ⟨_, hr.full, hcongr hr.live.members_eq hr.live.sound⟩
  · obtain ⟨ns, hns, hsound⟩ := hb.rebuilds
    exact ⟨ns, hns, hcongr hb.seated.members_eq hsound⟩

theorem Invariant.restart (h : Invariant K G.members s) (hp : p ∈ G.members)
    (hz : ZeroUncovered K s .restart) : Invariant K G.members
      { replica := Replica.boot G p .partialOrder (throughOffset s.saved) s.replica.conv.mask
          s.replica.conv.log
        inside := s.saved
        saved := s.saved
        replayed := false } := by
  obtain ⟨ns, hns, hsound⟩ := h.rebuilds
  obtain ⟨m, hm, hsaved⟩ := h.saved
  refine ⟨Or.inr ⟨rfl, seated_init (Group.slot_start hp), rfl, rfl, rfl, rfl, rfl, ns, hns, hsound⟩,
    ⟨m, ⟨hm, hsaved, throughOffset_lt hsaved, ?_⟩, ?_⟩, m, hm, hsaved⟩
  · intro i hi f hf hfa
    obtain ⟨hle, hin⟩ := le_throughOffset hsaved hi hf hfa
    refine ⟨?_, hle⟩
    rintro rfl
    refine hz f ?_ hfa hin
    rw [List.head?_eq_getElem?]
    exact hf
  · simp [Replica.boot, Substrate.new, appEntries]

theorem Invariant.step (h : Invariant K G.members s) (hp : p ∈ G.members)
    (hn : G.members.Nodup) (ho : Orderly s a) (hz : ZeroUncovered K s a)
    (ha : AppendsSucceed a) (hstep : SnapshotLife.step K G p s a = some t) :
    Invariant K G.members t := by
  cases a with
  | run ra =>
    obtain ⟨r, hr, rfl⟩ := Option.map_eq_some_iff.mp hstep
    exact h.run hn ho ha hr
  | snapshot =>
    cases hstep
    exact h.snapshot
  | restart =>
    cases hstep
    exact h.restart hp hz

theorem Running.ids_content {inside : List Message} {r : Replica} {m : ℕ}
    (hr : Running members r) (h : Content K m inside r)
    (hd : r.consumed = r.conv.delivered.length) : (inside ++ r.sub.applied).map Message.id =
      (r.conv.log.frames.filter fun f => K.isApp f.envelope.payload).map
        fun f => f.envelope.id := by
  have hall : max m r.consumed = r.conv.log.indexed.length := by
    have hle := h.le
    rw [hr.full, List.length_map] at hle
    rw [hr.live.delivered, List.length_map] at hd
    rw [MessageLog.indexed, List.length_zipIdx, hr.full, List.length_map]
    omega
  have hentries := congrArg (List.map Prod.fst) h.all
  rw [hall, List.take_length, fst_appEntries, List.map_map] at hentries
  exact hentries

theorem Invariant.exactlyOnce (h : Invariant K members s) (hd : Drained s) :
    ExactlyOnce K s := by
  obtain ⟨m, hm⟩ := h.content
  rcases h.process with ⟨_, hr⟩ | ⟨hrep, _⟩
  · have hids := hr.ids_content hm hd.2
    have hnodup : (s.content.map Message.id).Nodup := by
      have hn := hr.live.sound.nodup_ids
      rw [SnapshotLife.content, hids]
      refine List.Nodup.sublist (List.filter_sublist.map _) ?_
      rw [hr.full, List.map_map]
      rwa [List.map_map] at hn
    intro f hf hfa
    refine List.count_eq_one_of_mem hnodup ?_
    rw [SnapshotLife.content, hids]
    exact List.mem_map.mpr ⟨f, List.mem_filter.mpr ⟨hf, hfa⟩, rfl⟩
  · rw [hd.1] at hrep
    cases hrep

instance (s : SnapshotLife) (a : SnapshotAction) : Decidable (Orderly s a) :=
  match a with
  | .run a => inferInstanceAs (Decidable (s.replica.Static a ∧ _ ∧ _))
  | .snapshot | .restart => isTrue trivial

instance (K : FrameCodec) (s : SnapshotLife) (a : SnapshotAction) :
    Decidable (ZeroUncovered K s a) :=
  match a with
  | .restart => inferInstanceAs (Decidable (∀ f ∈ s.replica.conv.log.frames.head?,
      K.isApp f.envelope.payload = true → f.envelope.id ∉ s.saved.map Message.id))
  | .snapshot | .run _ => isTrue trivial

instance (s : SnapshotLife) : Decidable (Drained s) := inferInstanceAs (Decidable (_ ∧ _))

instance (K : FrameCodec) (s : SnapshotLife) : Decidable (ExactlyOnce K s) :=
  inferInstanceAs (Decidable (∀ f ∈ s.replica.conv.log.frames,
    K.isApp f.envelope.payload = true → (s.content.map Message.id).count f.envelope.id = 1))

/-- Over any number of snapshots and restarts, whenever the log has been drained every
application message in it is in the state machine once, unless a process restarts from a
snapshot that holds the message at offset zero. -/
theorem restart_exactlyOnce (hp : p ∈ G.members) (hn : G.members.Nodup)
    (hs : Reach (step K G p)
      (fun s a => (Orderly s a ∧ ZeroUncovered K s a) ∧ AppendsSucceed a) (start G p) s)
    (hd : Drained s) : ExactlyOnce K s := by
  have hinv : Invariant K G.members s := hs.invariant (invariant_start hp)
    (fun _ _ _ h hg hstep => h.step hp hn hg.1.1 hg.1.2 hg.2 hstep)
  exact hinv.exactlyOnce hd

open Replica in
/-- A snapshot between two messages that follow a heartbeat. -/
def heartbeatFirst : List SnapshotAction :=
  ([send .heartbeat, send (.app [5])] ++ forward ++ forward).map .run ++ [.snapshot] ++
    (send (.app [6]) :: forward).map .run ++ [.restart] ++
    (.request .replayLog :: (forward ++ forward ++ forward)).map .run

theorem restart_exactlyOnce_heartbeat : ∃ s,
    execute (step .tagged Replica.duo [1]) (fun s a => Orderly s a ∧ ZeroUncovered .tagged s a)
        (start Replica.duo [1]) heartbeatFirst = some s ∧
      s.inside.length = 1 ∧ s.replica.sub.applied.length = 1 ∧ ExactlyOnce .tagged s := by
  have hrun : (execute (step .tagged Replica.duo [1])
      (fun s a => Orderly s a ∧ ZeroUncovered .tagged s a) (start Replica.duo [1])
      heartbeatFirst).map (fun s => decide (s.inside.length = 1 ∧
        s.replica.sub.applied.length = 1 ∧ Drained s)) = some true := by decide +kernel
  obtain ⟨s, he, _, hc⟩ := reach_of_execute hrun
  obtain ⟨hin, happ, hd⟩ := of_decide_eq_true hc
  have hs := execute_reach_of_forall (P := AppendsSucceed) heartbeatFirst he (by
    simp [heartbeatFirst, AppendsSucceed, ReplicaAction.AppendsSucceed, Replica.send,
      Replica.forward, Request.AppendsSucceed, HandlerChoices.standard])
  exact ⟨s, he, hin, happ, restart_exactlyOnce (by decide) (by decide) hs hd⟩

/-- The message at offset zero is in the snapshot and is applied again by the replay. -/
theorem restart_applies_twice : ∃ s,
    Reach (step .tagged Replica.duo [1]) (fun s a => Orderly s a ∧ AppendsSucceed a)
      (start Replica.duo [1]) s ∧ Drained s ∧ ¬ ExactlyOnce .tagged s := by
  have hrun : (execute (step .tagged Replica.duo [1]) Orderly (start Replica.duo [1])
      ((Replica.send (.app [5]) :: Replica.forward).map .run ++ [.snapshot, .restart] ++
        (.request .replayLog :: Replica.forward).map .run)).map
      (fun s => decide (Drained s ∧ ¬ ExactlyOnce .tagged s)) = some true := by decide +kernel
  obtain ⟨s, he, _, hc⟩ := reach_of_execute hrun
  have hs := execute_reach_of_forall (P := AppendsSucceed) _ he (by
    simp [AppendsSucceed, ReplicaAction.AppendsSucceed, Replica.send, Replica.forward,
      Request.AppendsSucceed, HandlerChoices.standard])
  exact ⟨s, hs, of_decide_eq_true hc⟩

end SnapshotLife
end Comlink
