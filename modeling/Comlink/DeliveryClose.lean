import Comlink.ReplayDrain

/-!
# Closing the delivery channel

`Close` of a conversation stops the server and then closes the delivery channel. Handlers
push to the channel as long as the server runs. The goroutines that `ReplayLog` leaves
behind push to it as well, and they end with the context of the cluster, not with the
conversation. A push on the closed channel panics. It is ready in the `select` of such a
goroutine even when the context is done.
-/
namespace Comlink
open GuardedRuns

/-- A conversation with what its replays have not yet pushed, one list for a goroutine.
`closed` is set by the first `Close`, `stopped` when the server has stopped. -/
structure ClosingConversation where
  conv : Conversation
  drains : List (List Envelope)
  ctxDone : Bool
  closed : Bool
  stopped : Bool
  deliverClosed : Bool
  panicked : Bool

inductive ClosingAction where
  | request (req : Conversation.Request)
  | restart
  | push (i : ℕ)
  | quit (i : ℕ)
  | cancelContext
  | close
  | stop
  | closeDeliver

namespace ClosingConversation

variable {s t : ClosingConversation} {a : ClosingAction}

def start (c : Conversation) : ClosingConversation := ⟨c, [], false, false, false, false, false⟩

/-- A handler leaves the conversation `c`; it panics if it has to push on a closed channel. -/
def handled (s : ClosingConversation) (c : Conversation) : ClosingConversation :=
  { s with
    conv := c
    panicked := s.deliverClosed && decide (c.delivered ≠ s.conv.delivered) }

/-- The handler of a request. That of `ReplayLog` pushes nothing by itself. -/
def handle (s : ClosingConversation) : Conversation.Request → ClosingConversation
  | .replayLog =>
    { s.handled s.conv.handleReplay.1 with drains := s.drains ++ [s.conv.handleReplay.2] }
  | req => s.handled (s.conv.handle req)

/-- The goroutine of a replay pushes its next envelope. -/
def push (s : ClosingConversation) (i : ℕ) : Option ClosingConversation :=
  match s.drains[i]? with
  | some (env :: rest) =>
    if s.deliverClosed then some { s with panicked := true }
    else some { s with
      conv := { s.conv with delivered := s.conv.delivered ++ [env] }
      drains := s.drains.set i rest }
  | _ => none

/-- Nothing happens after a panic. -/
def step (s : ClosingConversation) (a : ClosingAction) : Option ClosingConversation :=
  if s.panicked then none
  else match a with
    | .request req => if s.stopped then none else some (s.handle req)
    | .restart => if s.stopped then none else some (s.handled s.conv.handleReplay.1)
    | .push i => s.push i
    | .quit i => if s.ctxDone then some { s with drains := s.drains.set i [] } else none
    | .cancelContext => some { s with ctxDone := true }
    | .close => some { s with closed := true }
    | .stop => if s.closed then some { s with stopped := true } else none
    | .closeDeliver =>
      if s.stopped && !s.deliverClosed then some { s with deliverClosed := true } else none

/-- No replay has anything left to push. -/
def Drained (s : ClosingConversation) : Prop := ∀ d ∈ s.drains, d = []

/-- The channel is closed after all replays have been pushed or given up. -/
def ClosedDrained (s : ClosingConversation) : ClosingAction → Prop
  | .closeDeliver => s.Drained
  | _ => True

instance (s : ClosingConversation) : Decidable s.Drained :=
  inferInstanceAs (Decidable (∀ d ∈ s.drains, d = []))

instance (s : ClosingConversation) (a : ClosingAction) : Decidable (s.ClosedDrained a) :=
  match a with
  | .closeDeliver => inferInstanceAs (Decidable s.Drained)
  | .request _ | .restart | .push _ | .quit _ | .cancelContext | .close | .stop => isTrue trivial

section Replays

/-- A replay before anything is closed. -/
def ofDrain (s : ReplayDrain) : ClosingConversation :=
  { start s.conv with drains := [s.undrained] }

theorem step_replayLog (c : Conversation) :
    step (start c) (.request .replayLog) = some (ofDrain (ReplayDrain.start c)) := rfl

/-- Before `Close` a replay and the handlers interleave as in `ReplayDrain`. -/
theorem reach_ofDrain {ok : ReplayDrain → DrainAction → Prop} {s t : ReplayDrain}
    (hr : Reach ReplayDrain.step ok s t) :
    Reach step (fun _ _ => True) (ofDrain s) (ofDrain t) := by
  induction hr with
  | refl => exact .refl
  | @tail u v _ hstep ih =>
    obtain ⟨a, -, hstep⟩ := hstep
    cases a with
    | push =>
      obtain ⟨c, undrained⟩ := u
      cases undrained with
      | nil => cases hstep
      | cons env rest =>
        cases hstep
        exact ih.tail ⟨.push 0, trivial, rfl⟩
    | send io payload =>
      cases hstep
      exact ih.tail ⟨.request (.send io payload), trivial, rfl⟩
    | incoming io origin frame =>
      cases hstep
      exact ih.tail ⟨.request (.incoming io origin frame), trivial, rfl⟩

end Replays

structure Sound (s : ClosingConversation) : Prop where
  panicked : s.panicked = false
  closed : s.deliverClosed = true → s.stopped = true ∧ s.Drained

theorem sound_start (c : Conversation) : (start c).Sound := ⟨rfl, nofun⟩

theorem sound_of_open (hopen : s.deliverClosed = false) (hpanic : s.panicked = false) :
    s.Sound := by
  refine ⟨hpanic, fun hclosed => ?_⟩
  rw [hopen] at hclosed
  cases hclosed

/-- While the server runs the channel is open. -/
theorem Sound.deliverClosed (h : s.Sound) (hrun : s.stopped = false) : s.deliverClosed = false := by
  cases hclosed : s.deliverClosed with
  | false => rfl
  | true =>
    rw [(h.closed hclosed).1] at hrun
    cases hrun

/-- A handler does not touch the flags of an open channel. -/
theorem handle_open (hopen : s.deliverClosed = false) (req : Conversation.Request) :
    (s.handle req).deliverClosed = false ∧ (s.handle req).panicked = false := by
  cases req <;> exact ⟨hopen, by simp [handle, handled, hopen]⟩

theorem Sound.push (h : s.Sound) {i : ℕ} (ht : s.push i = some t) : t.Sound := by
  unfold ClosingConversation.push at ht
  split at ht
  · rename_i env rest hd
    have hopen : s.deliverClosed = false := by
      cases hclosed : s.deliverClosed with
      | false => rfl
      | true => cases (h.closed hclosed).2 _ (List.mem_of_getElem? hd)
    rw [if_neg (by simp [hopen])] at ht
    cases ht
    exact sound_of_open hopen h.panicked
  · cases ht

theorem Sound.step (h : s.Sound) (hok : s.ClosedDrained a) (ht : step s a = some t) : t.Sound := by
  unfold ClosingConversation.step at ht
  rw [if_neg (by simp [h.panicked])] at ht
  cases a with
  | request req =>
    dsimp only at ht
    split at ht
    · cases ht
    · rename_i hrun
      cases ht
      obtain ⟨hopen, hpanic⟩ := handle_open (h.deliverClosed (by simpa using hrun)) req
      exact sound_of_open hopen hpanic
  | restart =>
    dsimp only at ht
    split at ht
    · cases ht
    · rename_i hrun
      cases ht
      have hopen := h.deliverClosed (by simpa using hrun)
      exact sound_of_open hopen (by simp [handled, hopen])
  | push i => exact h.push ht
  | quit i =>
    dsimp only at ht
    split at ht
    · cases ht
      refine ⟨h.panicked, fun hclosed => ⟨(h.closed hclosed).1, fun d hd => ?_⟩⟩
      rcases List.mem_or_eq_of_mem_set hd with hd | rfl
      · exact (h.closed hclosed).2 d hd
      · rfl
    · cases ht
  | cancelContext =>
    cases ht
    exact ⟨h.panicked, h.closed⟩
  | close =>
    cases ht
    exact ⟨h.panicked, h.closed⟩
  | stop =>
    dsimp only at ht
    split at ht
    · cases ht
      exact ⟨h.panicked, fun hclosed => ⟨rfl, (h.closed hclosed).2⟩⟩
    · cases ht
  | closeDeliver =>
    dsimp only at ht
    split at ht
    · rename_i hstopped
      cases ht
      rw [Bool.and_eq_true] at hstopped
      exact ⟨h.panicked, fun _ => ⟨hstopped.1, hok⟩⟩
    · cases ht

theorem sound_of_reach {c : Conversation} (hr : Reach step ClosedDrained (start c) s) : s.Sound :=
  hr.invariant (sound_start c) fun _ _ _ h hok ht => h.step hok ht

/-- When the channel is closed, a push can hit it exactly if a replay is not drained. -/
theorem closeDeliver_panics_iff (h : s.Sound) :
    (∃ i t, step { s with deliverClosed := true } (.push i) = some t ∧ t.panicked = true) ↔
      ¬s.Drained := by
  constructor
  · rintro ⟨i, t, ht, hpanic⟩ hdrained
    unfold ClosingConversation.step ClosingConversation.push at ht
    dsimp only at ht
    rw [if_neg (by simp [h.panicked])] at ht
    split at ht
    · rename_i hd
      cases hdrained _ (List.mem_of_getElem? hd)
    · cases ht
  · intro hne
    simp only [Drained, not_forall] at hne
    obtain ⟨d, hd, hd'⟩ := hne
    obtain ⟨env, rest, rfl⟩ := List.exists_cons_of_ne_nil hd'
    obtain ⟨i, hi⟩ := List.mem_iff_getElem?.mp hd
    refine ⟨i, { s with deliverClosed := true, panicked := true }, ?_, rfl⟩
    unfold ClosingConversation.step ClosingConversation.push
    dsimp only
    rw [if_neg (by simp [h.panicked]), hi]
    rfl

/-- However the handlers, the replays and `Close` interleave, nothing is pushed on the
closed channel, as long as the channel is closed after all replays are drained. -/
theorem never_delivered_after_close {c : Conversation}
    (hr : Reach step ClosedDrained (start c) s) : s.panicked = false :=
  (sound_of_reach hr).panicked

/-- The replica of `ReplayDrain.answered`, restarted. -/
def restarted : Conversation := .init [9] [1] 0 [[1], [2]] [] ReplayDrain.answered

/-- The replay is drained when the conversation is closed. -/
theorem never_delivered_after_close_drained : ∃ s,
    execute step ClosedDrained (start restarted)
      [.request .replayLog, .push 0, .close, .push 0, .stop, .closeDeliver] = some s ∧
    s.deliverClosed = true ∧ s.panicked = false := by
  have hrun : (execute step ClosedDrained (start restarted)
      [.request .replayLog, .push 0, .close, .push 0, .stop, .closeDeliver]).map deliverClosed =
        some true := by decide +kernel
  obtain ⟨s, hs, hr, hclosed⟩ := reach_of_execute hrun
  exact ⟨s, hs, hclosed, never_delivered_after_close hr⟩

/-- The conversation is closed while its log is replayed. -/
theorem delivered_after_close : ∃ s, Reach step (fun _ _ => True) (start restarted) s ∧
    s.deliverClosed = true ∧ s.panicked = true := by
  have hrun : (execute step (fun _ _ => True) (start restarted)
      [.request .replayLog, .push 0, .close, .stop, .closeDeliver, .push 0]).map
        (fun s => s.deliverClosed && s.panicked) = some true := by decide +kernel
  obtain ⟨s, -, hr, hs⟩ := reach_of_execute hrun
  rw [Bool.and_eq_true] at hs
  exact ⟨s, hr, hs⟩

end ClosingConversation
end Comlink
