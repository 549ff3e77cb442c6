import Comlink.ServerSteps
import Comlink.GuardedRuns

/-!
# The log rebuilds the graph

While no append fails and nothing is trimmed, the log holds the frames of the graph's
nodes in insertion order: a send appends before it inserts, a received envelope is
inserted before it is appended, and a release from deferral repeats the latter inside
the handler, but the two orders never drift apart. A process that is started over such a
log and replays it first has the graph of its predecessor.
-/
namespace Comlink.Conversation
open GuardedRuns

variable {c c' : Conversation} {members : List ReplicaID}

/-- What happens to a conversation over its processes. A new process is configured with
the same members, and its first request replays the log: that of `ReplayLog`, or that of
`Restart`, which delivers nothing. -/
inductive Tenure where
  | serve (a : ServerStep)
  | reopen (deliver : Bool)

def reopen (members : List ReplicaID) (c : Conversation) (deliver : Bool) :
    Option Conversation :=
  (new c.convID c.self members c.mask c.log).map fun fresh =>
    if deliver then fresh.replayLog else fresh.handleReplay.1

def tenure (members : List ReplicaID) (c : Conversation) : Tenure → Option Conversation
  | .serve a => c.serve a
  | .reopen deliver => reopen members c deliver

/-- Requests that neither change the member list, nor trim the log, nor fail to append. -/
def Request.KeepsLog : Request → Prop
  | .send io _ => ∀ k, io.appendOk k = true
  | .incoming io _ _ => ∀ k, io.appendOk k = true
  | .addMember _ => False
  | .truncateLog _ => False
  | _ => True

def KeepsLog (_ : Conversation) : Tenure → Prop
  | .serve (.request req) => req.KeepsLog
  | .serve .restart => True
  | .reopen _ => True

structure Mirrored (members : List ReplicaID) (c : Conversation) : Prop
    extends Seated members c where
  frames : c.log.frames = c.graph.nodes.map Node.frame
  untrimmed : c.log.firstOffset = 0

theorem Request.KeepsLog.isStatic {req : Request} (h : req.KeepsLog) : req.isStatic = true := by
  cases req <;> first | rfl | exact h.elim

theorem Request.KeepsLog.appendsSucceed {req : Request} (h : req.KeepsLog) :
    req.AppendsSucceed := by
  cases req <;> first | exact h | trivial

theorem mirrored_new {convID : ConversationID} {self : ReplicaID} {mask : List ReplicaID}
    (h : new convID self members mask .empty = some c) : Mirrored members c := by
  obtain ⟨slot, hs, rfl⟩ := Option.map_eq_some_iff.mp h
  exact ⟨seated_init hs, rfl, rfl⟩

theorem Mirrored.entries (h : Mirrored members c) :
    c.log.entries = c.graph.nodes.map Node.frame := by
  rw [MessageLog.entries, h.untrimmed, List.drop_zero, h.frames]

theorem Mirrored.handleReplay_eq (h : Mirrored members c) : c.handleReplay = (c, []) :=
  h.toSeated.handleReplay_known fun _ hf => h.frames ▸ hf

theorem Mirrored.handle (h : Mirrored members c) {req : Request} (hreq : req.KeepsLog) :
    Mirrored members (c.handle req) := by
  by_cases hr : req = .replayLog
  · subst hr
    have he : c.replayLog = c := by simp [replayLog, h.handleReplay_eq]
    rw [Conversation.handle, he]
    exact h
  · have hfirst := firstOffset_handle c (fun b hb => by subst hb; exact hreq) hr
    have heff := h.toSeated.effect req hreq.isStatic hr
    have hfull := Full.effect h.frames heff hreq.appendsSucceed
    refine ⟨?_, hfull, hfirst.trans h.untrimmed⟩
    generalize c.handle req = c' at heff ⊢
    cases heff with
    | quiet hq => exact h.toSeated.quiet hq
    | issue henv hi hslot hlog => exact ⟨h.members_eq, h.slot, h.sound.insert hi⟩
    | receive hm => exact h.toSeated.received (hm (fun _ => True) (fun _ _ _ => trivial) trivial)

/-- A process configured with the same members rebuilds the graph from the log. -/
theorem Mirrored.handleReplay_fresh (h : Mirrored members c) (fresh : Conversation)
    (hm : fresh.membership.allReplicas = members) (hg : fresh.graph = .empty)
    (hl : fresh.log = c.log) : fresh.handleReplay =
      ({ fresh with graph := c.graph }, c.log.entries.map LogFrame.envelope) := by
  have hsound := h.sound.congr (hm.trans h.members_eq.symm)
  have hfresh : fresh.log.frames = c.graph.nodes.map Node.frame := hl ▸ h.frames
  rw [handleReplay_of_frames (by rw [hg]; rfl) (hl ▸ h.untrimmed) hfresh hsound, h.entries]
  simp [Node.frame, Function.comp_def]

theorem Mirrored.reopen (h : Mirrored members c) {deliver : Bool}
    (hs : reopen members c deliver = some c') : Mirrored members c' := by
  obtain ⟨fresh, hnew, rfl⟩ := Option.map_eq_some_iff.mp hs
  obtain ⟨slot, hslot, rfl⟩ := Option.map_eq_some_iff.mp hnew
  have hall := Membership.allReplicas_ofReplicas members
  have hreplay := h.handleReplay_fresh (init c.convID c.self slot members c.mask c.log) hall
    rfl rfl
  have hsound := h.sound.congr (hall.trans h.members_eq.symm)
  cases deliver with
  | false =>
    rw [hreplay]
    exact ⟨⟨hall, hslot, hsound⟩, h.frames, h.untrimmed⟩
  | true =>
    rw [if_pos rfl, replayLog, hreplay]
    exact ⟨⟨hall, hslot, hsound⟩, h.frames, h.untrimmed⟩

theorem Mirrored.tenure (h : Mirrored members c) {a : Tenure} (ha : KeepsLog c a)
    (hs : tenure members c a = some c') : Mirrored members c' := by
  cases a with
  | serve a =>
    cases a with
    | request req =>
      cases hs
      exact h.handle ha
    | restart =>
      cases hs
      rw [h.handleReplay_eq]
      exact h
  | reopen deliver => exact h.reopen hs

/-- The parents of a logged message are logged at smaller offsets. -/
theorem Mirrored.parents_before (h : Mirrored members c) {i : ℕ} {f : LogFrame}
    (hf : c.log.frames[i]? = some f) {k : Key}
    (hk : k ∈ Graph.derivedParents c.membership f.envelope) :
    ∃ j f', j < i ∧ c.log.frames[j]? = some f' ∧ f'.key = k := by
  rw [h.frames, List.getElem?_map] at hf
  obtain ⟨n, hn, rfl⟩ := Option.map_eq_some_iff.mp hf
  obtain ⟨hlt, hget⟩ := List.getElem?_eq_some_iff.mp hn
  have hsplit : c.graph.nodes = c.graph.nodes.take i ++ n :: c.graph.nodes.drop (i + 1) := by
    rw [← hget, List.getElem_cons_drop, List.take_append_drop]
  have hd := h.sound.derived n (List.mem_of_getElem? hn)
  have hparents := hd.derivedParents
  rw [Node.frame, hparents] at hk
  obtain ⟨p, hp, rfl⟩ := Graph.has_iff.mp (h.sound.parentsFirst _ n _ hsplit k hk)
  obtain ⟨j, hj, hjp⟩ := List.mem_take_iff_getElem.mp hp
  refine ⟨j, p.frame, by omega, ?_, rfl⟩
  rw [h.frames, List.getElem?_map, List.getElem?_eq_getElem (by omega), hjp]
  rfl

/-- Between any two steps the parents of a logged message are logged at smaller offsets,
and the replay of the log into an empty graph skips no entry, returns the envelopes in the
order of the log and yields the very graph that the process had. -/
theorem replay_rebuilds_graph {convID : ConversationID} {self : ReplicaID}
    {mask : List ReplicaID} {c₀ : Conversation}
    (hnew : new convID self members mask .empty = some c₀)
    (hr : Reach (tenure members) KeepsLog c₀ c) :
    (∀ (i : ℕ) (f : LogFrame), c.log.frames[i]? = some f →
        ∀ k ∈ Graph.derivedParents c.membership f.envelope,
          ∃ j f', j < i ∧ c.log.frames[j]? = some f' ∧ f'.key = k) ∧
      ∀ mask', ∃ fresh, new convID self members mask' c.log = some fresh ∧
        fresh.graph = .empty ∧ fresh.handleReplay =
          ({ fresh with graph := c.graph }, c.log.frames.map LogFrame.envelope) := by
  have h : Mirrored members c :=
    hr.invariant (mirrored_new hnew) fun _ _ _ hs ha hstep => hs.tenure ha hstep
  refine ⟨fun i f hf k hk => h.parents_before hf hk, fun mask' => ?_⟩
  obtain ⟨slot, hslot, rfl⟩ := Option.map_eq_some_iff.mp hnew
  have hfresh : new convID self members mask' c.log =
      some (init convID self slot members mask' c.log) := by rw [new, hslot]; rfl
  have hreplay := h.handleReplay_fresh (init convID self slot members mask' c.log)
    (Membership.allReplicas_ofReplicas members) rfl rfl
  refine ⟨_, hfresh, rfl, ?_⟩
  rw [hreplay, h.entries, h.frames]

/-- A message that has to wait for its parent, one of the replica's own, a restart, and
another message of the peer. -/
def rebuilt : List Tenure :=
  [.serve (.request (.incoming .standard [2] (.envelope (message [2] [0, 2])))),
    .serve (.request (.send .standard [7])), .serve (.request (.freezeMember [2])),
    .serve (.request (.incoming .standard [2] (.envelope (message [2] [0, 1])))),
    .reopen true, .serve (.request (.send .standard [8])),
    .serve (.request (.incoming .standard [2] (.envelope (message [2] [1, 3]))))]

theorem replay_rebuilds_graph_rebuilt :
    ∃ c₀ c, new [9] [1] [[1], [2]] [] .empty = some c₀ ∧
      Reach (tenure [[1], [2]]) KeepsLog c₀ c ∧
      c.log.frames.map LogFrame.key = [⟨[1], 1⟩, ⟨[2], 1⟩, ⟨[2], 2⟩, ⟨[1], 2⟩, ⟨[2], 3⟩] ∧
      ∀ mask', ∃ fresh, new [9] [1] [[1], [2]] mask' c.log = some fresh ∧
        fresh.graph = .empty ∧ fresh.handleReplay =
          ({ fresh with graph := c.graph }, c.log.frames.map LogFrame.envelope) := by
  have hnew : new [9] [1] [[1], [2]] [] .empty = some (init [9] [1] 0 [[1], [2]] [] .empty) := rfl
  have hrun : (execute (tenure [[1], [2]]) (fun _ _ => True)
      (init [9] [1] 0 [[1], [2]] [] .empty) rebuilt).map
      (fun c => decide (c.log.frames.map LogFrame.key =
        [⟨[1], 1⟩, ⟨[2], 1⟩, ⟨[2], 2⟩, ⟨[1], 2⟩, ⟨[2], 3⟩])) = some true := by decide +kernel
  obtain ⟨c, he, -, hkeys⟩ := reach_of_execute hrun
  have hr := execute_reach_of_forall (P := fun a => ∀ c, KeepsLog c a) rebuilt he
    (by simp [rebuilt, KeepsLog, Request.KeepsLog, HandlerChoices.standard])
  have hr' := hr.mono fun s _ h => h.2 s
  exact ⟨_, c, hnew, hr', of_decide_eq_true hkeys, (replay_rebuilds_graph hnew hr').2⟩

end Comlink.Conversation
