import Comlink.ServerSteps
import Comlink.GuardedRuns

/-!
# Durable before delivered

A send that cannot append its envelope gives up, whereas the receiving side only reports
the failed append and pushes the envelope on the delivery channel all the same. So what a
request delivers is in the log, provided that no append fails while it receives.
-/
namespace Comlink.Conversation
open GuardedRuns ListScans

variable {io : HandlerChoices} {E : Envelope → Prop} {c c' : Conversation}

/-- The envelope can be read from the log. -/
def Readable (c : Conversation) (e : Envelope) : Prop := ∃ f ∈ c.log.entries, f.envelope = e

/-- If the conversation accepts the envelope, then it gets it into its log, or has it
there already. -/
def Appendable (io : HandlerChoices) (c : Conversation) (e : Envelope) : Prop :=
  (∀ k, c.membership.keyOf e = some k → io.appendOk k = true) ∨ c.Readable e

/-- While an envelope is received no append fails, neither that of the envelope nor that
of one deferred before. -/
def AppendsReceived (c : Conversation) : ServerStep → Prop
  | .request (.incoming io _ (.envelope env)) =>
    Appendable io c env ∧ DeferredIn (Appendable io c) c
  | _ => True

/-- The steps in which something is sent or received. -/
def ServerStep.isTraffic : ServerStep → Bool
  | .request (.send _ _) | .request (.incoming _ _ _) => true
  | _ => false

/-- The states that a step passes through: a received envelope is handled move by move, any
other step is taken at once. -/
def PassesThrough (c : Conversation) (a : ServerStep) (d c' : Conversation) : Prop :=
  match a with
  | .request (.incoming io _ (.envelope _)) =>
    Moves io (fun _ => True) c d ∧ Moves io (fun _ => True) d c'
  | _ => d = c'

/-- Each envelope that the step pushes on the delivery channel can be read from the log in
the state in which it has just been pushed. -/
def DurableWhenPushed (c : Conversation) (a : ServerStep) (c' : Conversation) : Prop :=
  ∃ es, c'.delivered = c.delivered ++ es ∧ ∀ pre e post, es = pre ++ e :: post →
    ∃ d, PassesThrough c a d c' ∧ d.delivered = c.delivered ++ pre ++ [e] ∧ d.Readable e

theorem readable_append {log : MessageLog} {env : Envelope} {seq : ℕ}
    (h : c.log.append env seq = some log) {e : Envelope} (he : e = env ∨ c.Readable e) :
    ∃ f ∈ log.entries, f.envelope = e := by
  obtain ⟨hframes, hfirst⟩ := MessageLog.frames_append h
  have hentries : log.entries = c.log.entries ++ [⟨env, seq⟩] := by
    rw [MessageLog.entries, hframes, hfirst, List.drop_append_of_le_length c.log.firstOffset_le]
    rfl
  rw [hentries]
  rcases he with rfl | ⟨f, hf, hfe⟩
  · exact ⟨_, List.mem_append_right _ (List.mem_singleton_self _), rfl⟩
  · exact ⟨f, List.mem_append_left _ hf, hfe⟩

theorem readable_accept {env : Envelope} {k : Key} (hs : c.screen env = some k)
    (hok : io.appendOk k = true) (g : Graph) : (c.accept io env k g).Readable env := by
  unfold Readable Conversation.accept
  dsimp only
  rw [if_pos hok]
  cases hlog : c.log.append env k.seq with
  | none => simp [MessageLog.append, (screen_eq_some hs).1] at hlog
  | some log => exact readable_append hlog (Or.inl rfl)

theorem Readable.moves {e : Envelope} (h : c.Readable e) (hm : Moves io E c c') :
    c'.Readable e := by
  obtain ⟨f, hf, he⟩ := h
  refine ⟨f, ?_, he⟩
  rw [MessageLog.entries, Moves.firstOffset hm]
  exact ((Moves.extends hm).frames.drop _).subset hf

theorem Move.weaken (h : Move io E c c') : Move io (fun _ => True) c c' := by
  cases h with
  | bookkeeping hb => exact .bookkeeping ⟨hb.frame, fun _ _ _ _ => trivial, hb.outbox⟩
  | accept he hs hi => exact .accept trivial hs hi

theorem Moves.weaken (h : Moves io E c c') : Moves io (fun _ => True) c c' :=
  Relation.ReflTransGen.mono (fun _ _ hm => Move.weaken hm) _ _ h

/-- What the moves of a received envelope deliver is readable when it is pushed. -/
theorem moves_readable {s : Conversation} (hm : Moves io (Appendable io s) s c) :
    ∃ es, c.delivered = s.delivered ++ es ∧ ∀ pre e post, es = pre ++ e :: post →
      ∃ d, (Moves io (fun _ => True) s d ∧ Moves io (fun _ => True) d c) ∧
        d.delivered = s.delivered ++ pre ++ [e] ∧ d.Readable e := by
  induction hm with
  | refl => exact ⟨[], by simp, by simp⟩
  | @tail b c hms hm ih =>
    obtain ⟨es, hes, hread⟩ := ih
    have hearlier : ∀ pre e post, es = pre ++ e :: post →
        ∃ d, (Moves io (fun _ => True) s d ∧ Moves io (fun _ => True) d c) ∧
          d.delivered = s.delivered ++ pre ++ [e] ∧ d.Readable e := by
      intro pre e post he
      obtain ⟨d, hpass, hd⟩ := hread pre e post he
      exact ⟨d, ⟨hpass.1, hpass.2.tail hm.weaken⟩, hd⟩
    have hwhole := Moves.weaken (hms.tail hm)
    cases hm with
    | bookkeeping hb =>
      refine ⟨es, ?_, hearlier⟩
      rw [hb.frame]
      exact hes
    | @accept env k g n he hs hi =>
      have henv : (b.accept io env k g).Readable env := by
        rcases he with hok | hr
        · rw [← (Moves.kept hms).2] at hok
          exact readable_accept hs (hok k (keyOf_of_screen hs)) g
        · exact hr.moves hwhole
      have hpushed : (b.accept io env k g).delivered = s.delivered ++ es ++ [env] := by
        simp [Conversation.accept, hes]
      refine ⟨es ++ [env], ?_, forall_split_concat.mpr
        ⟨hearlier, _, ⟨hwhole, .refl⟩, hpushed, henv⟩⟩
      rw [hpushed, List.append_assoc]

theorem durableWhenPushed_of_eq {a : ServerStep} (h : c'.delivered = c.delivered) :
    DurableWhenPushed c a c' :=
  ⟨[], by simp [h], by simp⟩

/-- A send delivers only what it has appended. -/
theorem handleSend_readable (c : Conversation) (io : HandlerChoices) (payload : List UInt8) :
    DurableWhenPushed c (.request (.send io payload)) (c.handleSend io payload) := by
  generalize hc : c.handleSend io payload = c'
  unfold handleSend at hc
  split at hc
  · exact durableWhenPushed_of_eq (by rw [← hc])
  · rename_i env _
    dsimp only at hc
    split at hc
    · split at hc
      · exact durableWhenPushed_of_eq (by rw [← hc])
      · rename_i log hlog
        split at hc
        · exact durableWhenPushed_of_eq (by rw [← hc])
        · have hpushed : c'.delivered = c.delivered ++ [env] := by rw [← hc]; rfl
          have henv : c'.Readable env := by
            rw [← hc]
            exact readable_append hlog (Or.inl rfl)
          refine ⟨[] ++ [env], hpushed, forall_split_concat.mpr ⟨by simp, c', rfl, ?_, henv⟩⟩
          rw [hpushed, List.append_nil]
    · exact durableWhenPushed_of_eq (by rw [← hc])

theorem handleIncoming_readable (c : Conversation) (io : HandlerChoices) (origin : ReplicaID)
    (frame : WireFrame)
    (hok : AppendsReceived c (.request (.incoming io origin frame))) :
    DurableWhenPushed c (.request (.incoming io origin frame))
      (c.handleIncoming io origin frame) := by
  rcases frame.envelope_or with ⟨env, rfl⟩ | hframe
  · exact moves_readable (moves_handleEnvelope _ c env origin hok.2 hok.1)
  · exact durableWhenPushed_of_eq (by rw [handleIncoming_eq hframe])

/-- In whatever state, what is pushed on the delivery channel while a message is sent or
received can be read from the log when it is pushed, provided that no append fails while one
is received. -/
theorem delivered_traffic_readable {a : ServerStep} (ht : a.isTraffic = true)
    (ha : AppendsReceived c a) (hs : c.serve a = some c') : DurableWhenPushed c a c' := by
  cases a with
  | restart => cases ht
  | request req =>
    cases hs
    cases req with
    | send io payload => exact handleSend_readable c io payload
    | incoming io origin frame => exact handleIncoming_readable c io origin frame ha
    | maskout r => cases ht
    | maskin r => cases ht
    | replayLog => cases ht
    | freezeMember r => cases ht
    | addMember r => cases ht
    | requestMissing missing => cases ht
    | truncateLog b => cases ht

/-- A disk that refuses every append. -/
def fullDisk : HandlerChoices :=
  ⟨fun _ => false, fun _ keys => keys, fun _ keys => List.Perm.refl keys⟩

/-- A message that waits for its parent is released when the parent arrives, after a send
that the full disk has refused. -/
theorem delivered_traffic_readable_release : ∃ c₀ c c', new [9] [1] [[1], [2]] [] .empty = some c₀ ∧
    Reach serve (fun _ _ => True) c₀ c ∧
    c.serve (.request (.incoming .standard [2] (.envelope (message [2] [0, 1])))) = some c' ∧
    c'.delivered = [message [2] [0, 1], message [2] [0, 2]] ∧
    c.DurableWhenPushed (.request (.incoming .standard [2]
      (.envelope (message [2] [0, 1])))) c' := by
  have hnew : new [9] [1] [[1], [2]] [] .empty = some (init [9] [1] 0 [[1], [2]] [] .empty) := rfl
  have hrun : (execute serve (fun _ _ => True) (init [9] [1] 0 [[1], [2]] [] .empty)
      [.request (.incoming .standard [2] (.envelope (message [2] [0, 2]))),
        .request (.send fullDisk [7])]).map (fun c => decide
      ((c.handleIncoming .standard [2] (.envelope (message [2] [0, 1]))).delivered =
        [message [2] [0, 1], message [2] [0, 2]])) = some true := by decide +kernel
  obtain ⟨c, -, hr, hd⟩ := reach_of_execute hrun
  refine ⟨_, c, _, hnew, hr, rfl, of_decide_eq_true hd, ?_⟩
  refine delivered_traffic_readable rfl ⟨Or.inl fun _ _ => rfl, ?_⟩ rfl
  exact fun _ _ _ => Or.inl fun _ _ => rfl

/-- A message whose append fails is delivered although the log has never held it. -/
theorem delivered_without_log : ∃ c₀ c, new [9] [1] [[1], [2]] [] .empty = some c₀ ∧
    c₀.serve (.request (.incoming fullDisk [2] (.envelope (message [2] [0, 1])))) = some c ∧
    c.delivered = [message [2] [0, 1]] ∧ ¬ c₀.DurableWhenPushed
      (.request (.incoming fullDisk [2] (.envelope (message [2] [0, 1])))) c := by
  have hd : ((init [9] [1] 0 [[1], [2]] [] .empty).handle (.incoming fullDisk [2]
      (.envelope (message [2] [0, 1])))).delivered = [message [2] [0, 1]] := by decide +kernel
  have hlog : ((init [9] [1] 0 [[1], [2]] [] .empty).handle (.incoming fullDisk [2]
      (.envelope (message [2] [0, 1])))).log.entries = [] := by decide +kernel
  refine ⟨init [9] [1] 0 [[1], [2]] [] .empty, _, rfl, rfl, hd, ?_⟩
  rintro ⟨es, hes, hdurable⟩
  rw [hd] at hes
  obtain ⟨d, ⟨-, hm⟩, -, hread⟩ := hdurable [] (message [2] [0, 1]) [] hes.symm
  obtain ⟨f, hf, -⟩ := hread.moves hm
  rw [hlog] at hf
  cases hf

end Comlink.Conversation
