import Comlink.ServerSteps
import Comlink.GuardedRuns

/-!
# Frozen members

Freezing a member sets a flag on its slot. Neither the receiving side nor `Insert` nor
the replay of the log looks at the flag: they go on accepting the messages of a frozen
member. What does keep them out is the mask, which is consulted for every received
envelope, also for one released from deferral, but not for a replayed one.
-/
namespace Comlink.Conversation
open GuardedRuns

variable {io : HandlerChoices} {E : Envelope → Prop} {c c' d : Conversation} {r : ReplicaID}

/-- Nothing of `r` has entered graph, log or delivery channel in between. -/
structure SameFrom (r : ReplicaID) (c c' : Conversation) : Prop where
  nodes : c'.graph.nodes.filter (·.envelope.sender = r) =
    c.graph.nodes.filter (·.envelope.sender = r)
  frames : c'.log.frames.filter (·.envelope.sender = r) =
    c.log.frames.filter (·.envelope.sender = r)
  delivered : c'.delivered.filter (·.sender = r) = c.delivered.filter (·.sender = r)

/-- The replica is not `r` itself when it sends; when it receives, `r` is masked, or it has
neither received nor deferred a message of `r`; when it replays its log, it knows the
readable messages of `r`. -/
def KeepsOut (r : ReplicaID) (c : Conversation) : ServerStep → Prop
  | .request (.send _ _) => c.self ≠ r
  | .request (.incoming _ _ (.envelope env)) =>
    r ∈ c.mask ∨ env.sender ≠ r ∧ DeferredIn (·.sender ≠ r) c
  | .request .replayLog | .restart => ∀ f ∈ c.log.entries, f.envelope.sender = r →
      ∀ k, c.membership.keyOf f.envelope = some k → c.graph.has k = true
  | _ => True

theorem SameFrom.refl (r : ReplicaID) (c : Conversation) : SameFrom r c c := ⟨rfl, rfl, rfl⟩

theorem SameFrom.trans (h : SameFrom r c c') (h' : SameFrom r c' d) : SameFrom r c d :=
  ⟨h'.nodes.trans h.nodes, h'.frames.trans h.frames, h'.delivered.trans h.delivered⟩

theorem SameFrom.of_quiet (hq : Quiet c c') : SameFrom r c c' :=
  ⟨by rw [hq.graph], by rw [hq.frames], by rw [hq.delivered]⟩

theorem filter_concat_of_ne {α : Type} {p : α → Bool} (xs : List α) {x : α} (h : p x = false) :
    (xs ++ [x]).filter p = xs.filter p := by
  simp [h]

theorem frames_append_filter {log log' : MessageLog} {env : Envelope} {seq : ℕ}
    (h : log.append env seq = some log') (hne : env.sender ≠ r) :
    log'.frames.filter (·.envelope.sender = r) = log.frames.filter (·.envelope.sender = r) := by
  rw [(MessageLog.frames_append h).1]
  exact filter_concat_of_ne _ (by simpa using hne)

theorem sameFrom_handleSend (c : Conversation) (io : HandlerChoices) (payload : List UInt8)
    (hne : c.self ≠ r) : SameFrom r c (c.handleSend io payload) := by
  unfold handleSend
  split
  · exact SameFrom.refl r c
  · rename_i env henv
    have hsender : env.sender ≠ r := by simpa [Envelope.sender, (nextEnvelope_eq_some henv).2.1]
    dsimp only
    split
    · split
      · exact SameFrom.refl r c
      · rename_i log hlog
        have hframes := frames_append_filter hlog hsender
        split
        · exact ⟨rfl, hframes, rfl⟩
        · rename_i g n hi
          obtain ⟨rfl, rfl, -⟩ := Graph.insert_ok hi
          exact ⟨filter_concat_of_ne _ (by simpa using hsender), hframes,
            filter_concat_of_ne _ (by simpa using hsender)⟩
    · exact SameFrom.refl r c

theorem sameFrom_accept {env : Envelope} {k : Key} {g : Graph} {n : Node}
    (hi : c.graph.insert c.membership env = .ok (g, n)) (hne : env.sender ≠ r) :
    SameFrom r c (c.accept io env k g) := by
  obtain ⟨rfl, rfl, -⟩ := Graph.insert_ok hi
  refine ⟨filter_concat_of_ne _ (by simpa using hne), ?_,
    filter_concat_of_ne _ (by simpa using hne)⟩
  unfold Conversation.accept
  dsimp only
  split
  · cases hlog : c.log.append n.envelope k.seq with
    | none => rfl
    | some log => exact frames_append_filter hlog hne
  · rfl

/-- An envelope that passes the tests of `handleEnvelope` is from an unmasked sender. -/
theorem sender_notMem_mask_of_screen {env : Envelope} {k : Key} (h : c.screen env = some k) :
    env.sender ∉ c.mask := by
  unfold screen at h
  split_ifs at h
  split at h
  · cases h
  · rename_i sender hs
    split_ifs at h with hm
    simpa [Envelope.sender, hs] using fun hmask => hm (Or.inr hmask)

theorem Moves.sameFrom (hm : Moves io E c c')
    (hE : ∀ e, E e → e.sender ∉ c.mask → e.sender ≠ r) : SameFrom r c c' := by
  induction hm with
  | refl => exact SameFrom.refl r c
  | tail hms hm ih =>
    cases hm with
    | bookkeeping hb =>
      refine ih.trans ?_
      rw [hb.frame]
      exact ⟨rfl, rfl, rfl⟩
    | @accept env k g n he hs hi =>
      have hmask := sender_notMem_mask_of_screen hs
      rw [(Moves.untouched hms).mask] at hmask
      exact ih.trans (sameFrom_accept hi (hE env he hmask))

/-- An entry of `r` that the graph knows is skipped. -/
theorem sameFrom_foldl_replayEntry (fs : List LogFrame) (c : Conversation)
    (envs : List Envelope)
    (h : ∀ f ∈ fs, f.envelope.sender = r →
      ∀ k, c.membership.keyOf f.envelope = some k → c.graph.has k = true) :
    SameFrom r c (fs.foldl replayEntry (c, envs)).1 ∧
      ((fs.foldl replayEntry (c, envs)).2.filter (·.sender = r)) =
        envs.filter (·.sender = r) := by
  induction fs generalizing c envs with
  | nil => exact ⟨SameFrom.refl r c, rfl⟩
  | cons f fs ih =>
    rw [List.foldl_cons]
    obtain ⟨hf, hfs⟩ := List.forall_mem_cons.mp h
    rcases replayEntry_cases c envs f with he | ⟨n, hi, hne, he⟩
    · rw [he]
      exact ih c envs hfs
    · rw [he]
      obtain ⟨-, -, hd, hnew, -⟩ := Graph.insert_ok hi
      have hsender : f.envelope.sender ≠ r := by
        intro hr
        have hkey := hd.keyOf
        rw [hne] at hkey
        have hhas := hf hr _ hkey
        rw [Graph.has, hnew] at hhas
        cases hhas
      obtain ⟨hsame, henvs⟩ := ih { c with graph := ⟨c.graph.nodes ++ [n]⟩ } (envs ++ [f.envelope])
        fun f' hf' hr k hk => Graph.has_append [n] (hfs f' hf' hr k hk)
      have hnode : SameFrom r c { c with graph := ⟨c.graph.nodes ++ [n]⟩ } :=
        ⟨filter_concat_of_ne _ (by simpa [hne] using hsender), rfl, rfl⟩
      exact ⟨hnode.trans hsame, henvs.trans (filter_concat_of_ne _ (by simpa using hsender))⟩

theorem sameFrom_replayLog {delivered : List Envelope}
    (h : ∀ f ∈ c.log.entries, f.envelope.sender = r →
      ∀ k, c.membership.keyOf f.envelope = some k → c.graph.has k = true)
    (hd : delivered = c.delivered ∨ delivered = c.delivered ++ c.handleReplay.2) :
    SameFrom r c { c.handleReplay.1 with delivered := delivered } := by
  obtain ⟨hsame, henvs⟩ := sameFrom_foldl_replayEntry c.log.entries c [] h
  refine ⟨hsame.nodes, hsame.frames, ?_⟩
  rcases hd with rfl | rfl
  · rfl
  · have hnone : c.handleReplay.2.filter (·.sender = r) = [] := henvs
    rw [List.filter_append, hnone, List.append_nil]

theorem sameFrom_handleIncoming (c : Conversation) (io : HandlerChoices) (origin : ReplicaID)
    (frame : WireFrame) (h : KeepsOut r c (.request (.incoming io origin frame))) :
    SameFrom r c (c.handleIncoming io origin frame) := by
  rcases frame.envelope_or with ⟨env, rfl⟩ | hframe
  · rcases h with hmask | ⟨henv, hdef⟩
    · have hm := moves_incoming c io origin env
      exact hm.sameFrom fun e _ hunmasked hr => hunmasked (hr ▸ hmask)
    · have hm : Moves io (·.sender ≠ r) c (c.handleIncoming io origin (.envelope env)) :=
        moves_handleEnvelope _ c env origin hdef henv
      exact hm.sameFrom fun e he _ => he
  · exact .of_quiet (quiet_incoming hframe c io origin)

theorem sameFrom_serve {a : ServerStep} (ha : KeepsOut r c a) (hs : c.serve a = some c') :
    SameFrom r c c' := by
  cases a with
  | restart =>
    cases hs
    have hkept : c.handleReplay.1 = { c.handleReplay.1 with delivered := c.delivered } := by
      rw [handleReplay, foldl_replayEntry_frame]
    rw [hkept]
    exact sameFrom_replayLog ha (Or.inl rfl)
  | request req =>
    cases hs
    cases req with
    | send io payload => exact sameFrom_handleSend c io payload ha
    | incoming io origin frame => exact sameFrom_handleIncoming c io origin frame ha
    | maskout s => exact ⟨rfl, rfl, rfl⟩
    | maskin s => exact ⟨rfl, rfl, rfl⟩
    | replayLog => exact sameFrom_replayLog ha (Or.inr rfl)
    | freezeMember s => exact .of_quiet (quiet_freezeMember c s)
    | addMember s =>
      rw [handle, addMember]
      cases c.membership.add s <;> exact ⟨rfl, rfl, rfl⟩
    | requestMissing missing => exact .of_quiet (quiet_handleRequestMissing c missing)
    | truncateLog b => exact .of_quiet (quiet_truncateLog c b)

end Comlink.Conversation
