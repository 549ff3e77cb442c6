import Comlink.ConversationLive

/-!
# Replaying the log

`handleReplay` inserts the readable log entries into the graph one by one, skipping
what is already there and what lacks a parent, and returns the inserted envelopes.
-/
namespace Comlink.Conversation

variable {c : Conversation} {members : List ReplicaID}

/-- A replay only adds nodes, those of the envelopes that it returns. -/
theorem foldl_replayEntry (h : c.graph.Sound c.membership) (fs : List LogFrame)
    (envs : List Envelope) : ∃ ns : List Node,
      fs.foldl replayEntry (c, envs) =
        ({ c with graph := ⟨c.graph.nodes ++ ns⟩ }, envs ++ ns.map Node.envelope) ∧
      Graph.Sound c.membership ⟨c.graph.nodes ++ ns⟩ ∧
      ∀ n ∈ ns, ∃ f ∈ fs, f.envelope = n.envelope := by
  induction fs generalizing c envs with
  | nil => exact ⟨[], by simp, by simpa using h, nofun⟩
  | cons f fs ih =>
    rw [List.foldl_cons]
    rcases replayEntry_cases c envs f with he | ⟨n, hi, hne, he⟩
    · obtain ⟨ns, hfold, hsound, hmem⟩ := ih h envs
      refine ⟨ns, by rw [he, hfold], hsound, ?_⟩
      intro n hn
      obtain ⟨f', hf', hfe⟩ := hmem n hn
      exact ⟨f', List.mem_cons_of_mem _ hf', hfe⟩
    · obtain ⟨ns, hfold, hsound, hmem⟩ :=
        ih (c := { c with graph := ⟨c.graph.nodes ++ [n]⟩ }) (h.insert hi) (envs ++ [f.envelope])
      refine ⟨n :: ns, ?_, ?_, ?_⟩
      · rw [he, hfold]
        simp [hne]
      · simpa using hsound
      · intro x hx
        rcases List.mem_cons.mp hx with rfl | hx
        · exact ⟨f, List.mem_cons_self .., hne.symm⟩
        · obtain ⟨f', hf', hfe⟩ := hmem x hx
          exact ⟨f', List.mem_cons_of_mem _ hf', hfe⟩

/-- The log of a graph rebuilds the graph. -/
theorem foldl_replayEntry_nodes {pre : List Node} (ns : List Node) (hc : c.graph = ⟨pre⟩)
    (h : Graph.Sound c.membership ⟨pre ++ ns⟩) (envs : List Envelope) :
    (ns.map Node.frame).foldl replayEntry (c, envs) =
      ({ c with graph := ⟨pre ++ ns⟩ }, envs ++ ns.map Node.envelope) := by
  induction ns generalizing c pre envs with
  | nil => simp [← hc]
  | cons n ns ih =>
    have hd := h.derived n (List.mem_append_right _ (List.mem_cons_self ..))
    have hi := h.insert_prefix rfl
    have hhas : Graph.has ⟨pre⟩ ⟨n.envelope.sender, n.senderSeq⟩ = false := by
      obtain ⟨_, _, _, hnone, _⟩ := Graph.insert_ok hi
      rw [Graph.has, Option.isSome_eq_false_iff, Option.isNone_iff_eq_none]
      exact hnone
    have hentry : replayEntry (c, envs) n.frame =
        ({ c with graph := ⟨pre ++ [n]⟩ }, envs ++ [n.envelope]) := by
      simp only [replayEntry, Node.frame, hd.sender, hd.senderSeq, hc, hhas, hi,
        Bool.false_eq_true, if_false]
    rw [List.map_cons, List.foldl_cons, hentry]
    have hgraph : ({ c with graph := ⟨pre ++ [n]⟩ } : Conversation).graph = ⟨pre ++ [n]⟩ := rfl
    have hrest := ih hgraph (by simpa using h) (envs ++ [n.envelope])
    simpa using hrest

/-- A conversation that has just started over the untrimmed log of a graph replays all of
it. -/
theorem handleReplay_of_frames (hg : c.graph.nodes = []) (hfirst : c.log.firstOffset = 0)
    {ns : List Node} (hns : c.log.frames = ns.map Node.frame)
    (hsound : Graph.Sound c.membership ⟨ns⟩) :
    c.handleReplay = ({ c with graph := ⟨ns⟩ }, ns.map Node.envelope) := by
  have hgraph : c.graph = ⟨[]⟩ := by rw [← hg]
  have hfold := foldl_replayEntry_nodes ns hgraph (by simpa using hsound) []
  rw [handleReplay, MessageLog.entries, hfirst, List.drop_zero, hns, hfold]
  simp

theorem handleReplay_eq (h : c.graph.Sound c.membership) : ∃ ns : List Node,
    c.handleReplay = ({ c with graph := ⟨c.graph.nodes ++ ns⟩ }, ns.map Node.envelope) ∧
      Graph.Sound c.membership ⟨c.graph.nodes ++ ns⟩ ∧
      ∀ n ∈ ns, ∃ f ∈ c.log.entries, f.envelope = n.envelope := by
  obtain ⟨ns, hfold, hrest⟩ := foldl_replayEntry h c.log.entries []
  exact ⟨ns, by simpa [handleReplay] using hfold, hrest⟩

theorem replayLog_eq (h : c.graph.Sound c.membership) : ∃ ns : List Node,
    c.replayLog = { c with
      graph := ⟨c.graph.nodes ++ ns⟩
      delivered := c.delivered ++ ns.map Node.envelope } ∧
      Graph.Sound c.membership ⟨c.graph.nodes ++ ns⟩ ∧
      ∀ n ∈ ns, ∃ f ∈ c.log.entries, f.envelope = n.envelope := by
  obtain ⟨ns, heq, hrest⟩ := handleReplay_eq h
  exact ⟨ns, by rw [replayLog, heq], hrest⟩

/-- A replay reads the log only. -/
theorem log_handleReplay (c : Conversation) : c.handleReplay.1.log = c.log := by
  have hfold : ∀ (fs : List LogFrame) (c : Conversation) (envs : List Envelope),
      (fs.foldl replayEntry (c, envs)).1.log = c.log := by
    intro fs
    induction fs with
    | nil => exact fun c envs => rfl
    | cons f fs ih =>
      intro c envs
      rw [List.foldl_cons]
      rcases replayEntry_cases c envs f with he | ⟨n, _, _, he⟩
      · rw [he, ih]
      · rw [he, ih]
  exact hfold _ c []

/-- Whatever a request does, the log keeps its frames. -/
theorem frames_handle (c : Conversation) (req : Request) :
    c.log.frames <+: (c.handle req).log.frames := by
  cases req with
  | send io payload =>
    rw [Conversation.handle]
    rcases log_handleSend c io payload with hlog | ⟨env, seq, hlog⟩
    · rw [hlog]
    · rw [(MessageLog.frames_append hlog).1]
      exact List.prefix_append _ _
  | incoming io origin frame =>
    rcases frame.envelope_or with ⟨env, rfl⟩ | hframe
    · exact (moves_handleEnvelope (E := fun _ => True) _ c env origin (fun _ _ _ => trivial)
        trivial).extends.frames
    · exact (quiet_incoming hframe c io origin).extends.frames
  | maskout r => exact List.prefix_rfl
  | maskin r => exact List.prefix_rfl
  | replayLog =>
    rw [Conversation.handle, replayLog]
    exact (congrArg MessageLog.frames (log_handleReplay c)) ▸ List.prefix_rfl
  | freezeMember r => exact (quiet_freezeMember c r).extends.frames
  | addMember r =>
    simp only [Conversation.handle, addMember]
    cases c.membership.add r <;> exact List.prefix_rfl
  | requestMissing missing => exact (quiet_handleRequestMissing c missing).extends.frames
  | truncateLog b => exact (quiet_truncateLog c b).extends.frames

section FullLogs

variable {c' : Conversation} {io : HandlerChoices} {E : Envelope → Prop}

/-- No append fails while the request is handled. -/
def Request.AppendsSucceed : Request → Prop
  | .send io _ => ∀ k, io.appendOk k = true
  | .incoming io _ _ => ∀ k, io.appendOk k = true
  | _ => True

/-- The log holds the graph. -/
def Full (c : Conversation) : Prop := c.log.frames = c.graph.nodes.map Node.frame

theorem Full.moves (h : Full c) (hio : ∀ k, io.appendOk k = true) (hm : Moves io E c c') :
    Full c' := by
  induction hm with
  | refl => exact h
  | @tail b _ _ hm ih =>
    cases hm with
    | bookkeeping hb =>
      rw [hb.frame]
      exact ih
    | @accept env k g n he hs hi =>
      have hk := screen_key hs hi
      have hsender := (screen_eq_some hs).1
      obtain ⟨rfl, rfl, _, _, _⟩ := Graph.insert_ok hi
      rw [Full, frames_accept io b hsender, if_pos (hio k), ih, ← hk]
      simp [accept, Node.frame, Node.key]

theorem Full.effect {req : Request} (hf : Full c) (heff : Effect c req c')
    (ha : req.AppendsSucceed) : Full c' := by
  cases heff with
  | quiet hq =>
    rw [Full, hq.frames, hq.graph]
    exact hf
  | issue henv hi hslot hlog =>
    rw [Full] at hf
    simp [Full, broadcastEnvelope, hlog, hf]
  | receive hm => exact hf.moves ha (hm (fun _ => True) (fun _ _ _ => trivial) trivial)

end FullLogs

end Comlink.Conversation
