import Comlink.Substrate
import Comlink.GuardedRuns

/-!
# The waiters of Submit

The calls of `Submit` and the apply pump, interleaved at the granularity of the lock of
the substrate. `Send` returns before the waiter is registered, so that the message can be
applied first. Then `handleApplied` finds no waiter and leaves a marker, and the call that
comes to register consumes the marker. Every call owns a channel, which the pump closes
outside of the lock. A call whose `Send` fails touches nothing of this.
-/
namespace Comlink
open GuardedRuns

inductive SubmitError where
  | notMember
  | clockTooShort
  | closed
  | contextDone
  deriving DecidableEq, Repr

/-- A call after its `Send`, in its `select` on the channel under a key, on the way to
take the waiter back, and after its return, where `none` is the nil error. -/
inductive SubmitStage where
  | sent
  | waiting (k : Key)
  | cancelled (k : Key)
  | returned (err : Option SubmitError)
  deriving DecidableEq, Repr

/-- A call of `Submit`, and how often its channel was closed. -/
structure SubmitCall where
  env : Envelope
  stage : SubmitStage
  closes : ℕ
  deriving DecidableEq, Repr

/-- The apply pump in `handleApplied`: after `Apply` and before the lock, or after the lock
with a channel to close. -/
inductive PumpStage where
  | idle
  | applied (env : Envelope) (k : Key)
  | closing (env : Envelope) (i : ℕ)
  deriving DecidableEq, Repr

/-- The values of `pendingApplies` are the numbers of the calls whose channels they are.
The own messages that were sent and the messages that `handleApplied` is done with are
recorded. -/
structure SubmitRun where
  sub : Substrate
  waiter : Key → ℕ
  calls : List SubmitCall
  pump : PumpStage
  sent : List Envelope
  handled : List Envelope
  closed : Bool
  stopped : Bool

inductive SubmitAction where
  | submit (id : MessageID) (payload : List UInt8)
  | sendOther (env : Envelope)
  | register (i : ℕ)
  | receive (i : ℕ)
  | cancel (i : ℕ)
  | withdraw (i : ℕ)
  | stop (i : ℕ)
  | apply (log : MessageLog) (env : Envelope)
  | signal
  | closeWaiter
  | close
  | closeStopped

/-- The part of `handleApplied` before it takes the lock. -/
def Substrate.noteApplied (s : Substrate) (msg : Message) (k : Key) : Substrate :=
  let s := if s.Covered msg.offset then s else { s with applied := s.applied ++ [msg] }
  let s := { s with appliedOffset := max s.appliedOffset msg.offset }
  s.noteAppliedForCausality k

theorem Substrate.applyMessage_eq_signalSubmit (s : Substrate) (msg : Message) (k : Key) :
    s.applyMessage msg k = (s.noteApplied msg k).signalSubmit k := rfl

theorem Substrate.sender_of_keyOf {s : Substrate} {env : Envelope} {k : Key}
    (h : s.keyOf env = some k) : k.sender = env.sender := by
  unfold keyOf at h
  split at h
  · cases h
  · split at h
    · cases h
    · cases h
      rfl

namespace SubmitRun

def start (sub : Substrate) : SubmitRun := ⟨sub, fun _ => 0, [], .idle, [], [], false, false⟩

def setStage (s : SubmitRun) (i : ℕ) (call : SubmitCall) (stage : SubmitStage) : SubmitRun :=
  { s with calls := s.calls.set i { call with stage := stage } }

/-- From the return of `Send` to the `select`. -/
def register (s : SubmitRun) (i : ℕ) (call : SubmitCall) : SubmitRun :=
  match s.sub.keyOf call.env with
  | none => s.setStage i call (.returned (some
      (if s.sub.self ∈ s.sub.members then .clockTooShort else .notMember)))
  | some k =>
    if s.closed then s.setStage i call (.returned (some .closed))
    else if k ∈ s.sub.appliedSelf then
      { s.setStage i call (.returned none) with sub := s.sub.awaitSubmit k }
    else
      { s.setStage i call (.waiting k) with
        sub := s.sub.awaitSubmit k
        waiter := Function.update s.waiter k i }

/-- `handleApplied` returns. -/
def finish (s : SubmitRun) (env : Envelope) : SubmitRun :=
  { s with pump := .idle, handled := s.handled ++ [env] }

/-- The section of `handleApplied` under the lock. -/
def signal (s : SubmitRun) (env : Envelope) (k : Key) : SubmitRun :=
  let t := { s with sub := s.sub.signalSubmit k }
  if k ∈ s.sub.pendingApplies then { t with pump := .closing env (s.waiter k) }
  else t.finish env

def step (K : FrameCodec) (s : SubmitRun) : SubmitAction → Option SubmitRun
  | .submit id payload =>
    let env : Envelope := ⟨id, K.marshal (.app payload)⟩
    some { s with sent := s.sent ++ [env], calls := s.calls ++ [⟨env, .sent, 0⟩] }
  | .sendOther env => some { s with sent := s.sent ++ [env] }
  | .register i => s.calls[i]?.bind fun call => match call.stage with
    | .sent => some (s.register i call)
    | _ => none
  | .receive i => s.calls[i]?.bind fun call => match call.stage with
    | .waiting _ =>
      if call.closes = 0 then none else some (s.setStage i call (.returned none))
    | _ => none
  | .cancel i => s.calls[i]?.bind fun call => match call.stage with
    | .waiting k => some (s.setStage i call (.cancelled k))
    | _ => none
  | .withdraw i => s.calls[i]?.bind fun call => match call.stage with
    | .cancelled k => some
        { s.setStage i call (.returned (some .contextDone)) with sub := s.sub.cancelSubmit k }
    | _ => none
  | .stop i => s.calls[i]?.bind fun call => match call.stage with
    | .waiting _ =>
      if s.stopped then some (s.setStage i call (.returned (some .closed))) else none
    | _ => none
  | .apply log env => match s.pump with
    | .idle => match K.unmarshal env.payload, s.sub.keyOf env with
      | some (.app payload), some k => some { s with
          sub := s.sub.noteApplied
            ⟨env.id, payload, env.sender, Substrate.localOffset log k, env.wave⟩ k
          pump := .applied env k }
      | _, _ => some ({ s with sub := (s.sub.handleApplied K log env).1 }.finish env)
    | _ => none
  | .signal => match s.pump with
    | .applied env k => some (s.signal env k)
    | _ => none
  | .closeWaiter => match s.pump with
    | .closing env i => (s.calls[i]?).map fun call =>
        { s with calls := s.calls.set i { call with closes := call.closes + 1 } }.finish env
    | _ => none
  | .close => some { s with closed := true }
  | .closeStopped => if s.closed then some { s with stopped := true } else none

/-- An own message whose number no earlier own message has. -/
def Fresh (s : SubmitRun) (env : Envelope) : Prop :=
  env.sender = s.sub.self ∧ ∀ e ∈ s.sent, ∀ k ∈ s.sub.keyOf env, s.sub.keyOf e ≠ some k

/-- Own messages have distinct numbers, and the order layer hands over no own message that
was not sent. -/
def Genuine (K : FrameCodec) (s : SubmitRun) : SubmitAction → Prop
  | .submit id payload => Fresh s ⟨id, K.marshal (.app payload)⟩
  | .sendOther env => Fresh s env
  | .apply _ env => env.sender = s.sub.self → env ∈ s.sent
  | _ => True

instance (s : SubmitRun) (env : Envelope) : Decidable (Fresh s env) :=
  inferInstanceAs (Decidable (_ ∧ ∀ e ∈ s.sent, ∀ k ∈ s.sub.keyOf env, s.sub.keyOf e ≠ some k))

instance (K : FrameCodec) (s : SubmitRun) (a : SubmitAction) : Decidable (Genuine K s a) :=
  match a with
  | .submit id payload => inferInstanceAs (Decidable (Fresh s ⟨id, K.marshal (.app payload)⟩))
  | .sendOther env => inferInstanceAs (Decidable (Fresh s env))
  | .apply _ env => inferInstanceAs (Decidable (env.sender = s.sub.self → env ∈ s.sent))
  | .register _ | .receive _ | .cancel _ | .withdraw _ | .stop _ | .signal | .closeWaiter
  | .close | .closeStopped => isTrue trivial

variable {K : FrameCodec} {s t : SubmitRun} {env : Envelope}

theorem noteApplied_eq (sub : Substrate) (msg : Message) (k : Key) : sub.noteApplied msg k =
    { sub with
      applied := if sub.Covered msg.offset then sub.applied else sub.applied ++ [msg]
      appliedOffset := (sub.noteApplied msg k).appliedOffset
      senderSeen := (sub.noteApplied msg k).senderSeen
      waiters := (sub.noteApplied msg k).waiters
      released := (sub.noteApplied msg k).released } := by
  unfold Substrate.noteApplied
  split <;> rfl

/-- Without an application message, or for an unknown sender, `handleApplied` leaves the
waiters and what was applied. -/
theorem handleApplied_ignored {sub : Substrate} {log : MessageLog}
    (h : K.isApp env.payload = true → sub.keyOf env = none) :
    (sub.handleApplied K log env).1 =
      { sub with trim := (sub.handleApplied K log env).1.trim } := by
  have heffect := Substrate.handleApplied_effect K sub log env
  generalize (sub.handleApplied K log env).1 = sub' at heffect ⊢
  generalize (sub.handleApplied K log env).2 = log' at heffect
  cases heffect with
  | ignored => rfl
  | watermark => rfl
  | message happ hk =>
    rw [h (Substrate.isApp_iff.mpr ⟨_, happ⟩)] at hk
    cases hk

/-- The two ways in which the pump can begin with a message. -/
theorem step_apply {log : MessageLog} (h : step K s (.apply log env) = some t) :
    s.pump = .idle ∧ ((∃ payload k, K.unmarshal env.payload = some (.app payload) ∧
        s.sub.keyOf env = some k ∧ t = { s with
          sub := s.sub.noteApplied
            ⟨env.id, payload, env.sender, Substrate.localOffset log k, env.wave⟩ k
          pump := .applied env k }) ∨
      (K.isApp env.payload = true → s.sub.keyOf env = none) ∧
        t = { s with sub := (s.sub.handleApplied K log env).1 }.finish env) := by
  unfold step at h
  dsimp only at h
  split at h
  · rename_i hidle
    refine ⟨hidle, ?_⟩
    split at h
    · rename_i payload k hp hk
      cases h
      exact Or.inl ⟨payload, k, hp, hk, rfl⟩
    · rename_i hnot
      cases h
      refine Or.inr ⟨fun happ => ?_, rfl⟩
      obtain ⟨payload, hp⟩ := Substrate.isApp_iff.mp happ
      by_contra hk
      obtain ⟨k, hk⟩ := Option.ne_none_iff_exists'.mp hk
      exact hnot payload k hp hk
  · cases h

/-- Undisturbed, the pump does what `handleApplied` does in one piece. -/
theorem reach_handleApplied (K : FrameCodec) (s : SubmitRun) (hidle : s.pump = .idle)
    (hwaiter : ∀ k ∈ s.sub.pendingApplies, s.waiter k < s.calls.length)
    (log : MessageLog) (env : Envelope) :
    ∃ t, Reach (step K) (fun _ _ => True) s t ∧ t.pump = .idle ∧
      t.sub = (s.sub.handleApplied K log env).1 ∧ t.handled = s.handled ++ [env] := by
  have hsome : (step K s (.apply log env)).isSome = true := by
    unfold step
    dsimp only
    rw [hidle]
    dsimp only
    split <;> rfl
  obtain ⟨u, hu⟩ := Option.isSome_iff_exists.mp hsome
  have hreach : Reach (step K) (fun _ _ => True) s u := .single ⟨_, trivial, hu⟩
  obtain ⟨-, ⟨payload, k, hp, hk, rfl⟩ | ⟨-, rfl⟩⟩ := step_apply hu
  · have hsub : (s.sub.handleApplied K log env).1 = (s.sub.noteApplied
        ⟨env.id, payload, env.sender, Substrate.localOffset log k, env.wave⟩ k).signalSubmit k := by
      unfold Substrate.handleApplied
      rw [hp, hk]
      exact Substrate.applyMessage_eq_signalSubmit _ _ _
    rw [hsub]
    have hpending := congrArg Substrate.pendingApplies (noteApplied_eq s.sub
      ⟨env.id, payload, env.sender, Substrate.localOffset log k, env.wave⟩ k)
    generalize s.sub.noteApplied _ k = sub at hreach hpending ⊢
    have hnext := hreach.tail ⟨.signal, trivial, rfl⟩
    rw [signal] at hnext
    split at hnext
    · rename_i hmem
      dsimp only at hmem hpending
      rw [hpending] at hmem
      have hget := List.getElem?_eq_getElem (hwaiter k hmem)
      have hclose := hnext.tail ⟨.closeWaiter, trivial, congrArg (Option.map _) hget⟩
      exact ⟨_, hclose, rfl, rfl, rfl⟩
    · exact ⟨_, hnext, rfl, rfl, rfl⟩
  · exact ⟨_, hreach, rfl, rfl, rfl⟩

end SubmitRun
end Comlink
