import Comlink.MessageLog
import Comlink.TrimTracker

/-!
# The substrate above an order layer

The part of `substrate.go` between the order layer and the application: the frames that
travel as message payloads, the apply pump with its snapshot suppression, the waiters of
`Submit` and `WaitForCausality`, and the watermark protocol. `applied` is the history of
the calls of `StateMachine.Apply`, `returned` that of the submissions that returned
without an error and `released` that of the causality waits that did.
-/
namespace Comlink

/-- The body of a `ConvFrame`. A substrate does not look into membership events. -/
inductive ConvFrame where
  | app (payload : List UInt8)
  | heartbeat
  | membership (event : List UInt8)
  | watermark (offset snapshotThroughOffset : ℕ)
  deriving DecidableEq, Repr

/-- The encoding of frames as payloads, of which only the round trip matters. -/
structure FrameCodec where
  marshal : ConvFrame → List UInt8
  unmarshal : List UInt8 → Option ConvFrame
  unmarshal_marshal : ∀ f, unmarshal (marshal f) = some f

/-- A small codec: the field number, then the content, numbers in unary. -/
def FrameCodec.tagged : FrameCodec where
  marshal
    | .app payload => 1 :: payload
    | .heartbeat => [2]
    | .membership event => 3 :: event
    | .watermark a b => 4 :: (List.replicate a 1 ++ 0 :: List.replicate b 1)
  unmarshal
    | 1 :: payload => some (.app payload)
    | [2] => some .heartbeat
    | 3 :: event => some (.membership event)
    | 4 :: bytes => some (.watermark (bytes.takeWhile (· = 1)).length
        ((bytes.dropWhile (· = 1)).length - 1))
    | _ => none
  unmarshal_marshal f := by
    cases f with
    | watermark a b => simp
    | _ => rfl

/-- What the application's `Apply` is handed. -/
structure Message where
  id : MessageID
  payload : List UInt8
  sender : ReplicaID
  offset : ℕ
  wave : ℕ
  deriving DecidableEq, Repr

/-- What `Snapshotter` must report of a snapshot that holds the given messages: the offset
of the last of them, zero without any. -/
def throughOffset (inside : List Message) : ℕ := (inside.getLast?.map Message.offset).getD 0

structure Substrate where
  members : List ReplicaID
  self : ReplicaID
  snapshotThrough : ℕ
  snapshotWmk : ℕ
  appliedOffset : ℕ
  trim : Tracker
  pendingApplies : List Key
  appliedSelf : List Key
  senderSeen : AList (fun _ : ReplicaID => ℕ)
  waiters : List Key
  toPublish : List (ℕ × ℕ)
  trimDue : ℕ
  applied : List Message
  returned : List Key
  released : List Key

namespace Substrate

/-- `NewSubstrate` with the through-offset of its initial snapshot, zero without one. -/
def new (members : List ReplicaID) (self : ReplicaID) (snapshotThrough : ℕ) : Substrate where
  members := members
  self := self
  snapshotThrough := snapshotThrough
  snapshotWmk := snapshotThrough
  appliedOffset := snapshotThrough
  trim := ∅
  pendingApplies := []
  appliedSelf := []
  senderSeen := ∅
  waiters := []
  toPublish := []
  trimDue := 0
  applied := []
  returned := []
  released := []

/-- The local offset of a message; a failed lookup reads as offset zero. -/
def localOffset (log : MessageLog) (k : Key) : ℕ := ((log.lookupBySender k).map Prod.fst).getD 0

/-- `maybeTrim`: truncate the log when the frontier of all members has advanced. -/
def maybeTrim (s : Substrate) (log : MessageLog) : MessageLog :=
  match s.trim.safeFrontier s.members with
  | none => log
  | some frontier =>
    if frontier = 0 ∨ frontier ≤ log.firstOffset then log else log.truncate frontier

def handleWatermark (s : Substrate) (log : MessageLog) (sender : ReplicaID) (mark : Mark) :
    Substrate × MessageLog :=
  if (s.trim.update sender mark).2 then
    let s := { s with trim := (s.trim.update sender mark).1 }
    (s, s.maybeTrim log)
  else (s, log)

/-- `noteAppliedForCausality`: a waiter is woken by any later message of its sender. -/
def noteAppliedForCausality (s : Substrate) (k : Key) : Substrate :=
  let seen := (s.senderSeen.lookup k.sender).getD 0
  { s with
    senderSeen := if seen < k.seq then s.senderSeen.insert k.sender k.seq else s.senderSeen
    waiters := s.waiters.filter fun w => ¬ (w.sender = k.sender ∧ w.seq ≤ k.seq)
    released := s.released ++ s.waiters.filter fun w => w.sender = k.sender ∧ w.seq ≤ k.seq }

/-- The waiter of `Submit` for an applied message, or the marker for one to come. -/
def signalSubmit (s : Substrate) (k : Key) : Substrate :=
  if k ∈ s.pendingApplies then
    { s with pendingApplies := s.pendingApplies.erase k, returned := s.returned ++ [k] }
  else if k.sender = s.self then { s with appliedSelf := s.appliedSelf.insert k }
  else s

/-- The initial snapshot covers an offset; zero counts as no offset. -/
def Covered (s : Substrate) (offset : ℕ) : Prop := offset ≠ 0 ∧ offset ≤ s.snapshotThrough

instance (s : Substrate) (offset : ℕ) : Decidable (s.Covered offset) :=
  inferInstanceAs (Decidable (_ ∧ _))

/-- The application message at its local offset: suppressed when the initial snapshot
covers the offset, and passed to `Apply` otherwise. -/
def applyMessage (s : Substrate) (msg : Message) (k : Key) : Substrate :=
  let s := if s.Covered msg.offset then s else { s with applied := s.applied ++ [msg] }
  let s := { s with appliedOffset := max s.appliedOffset msg.offset }
  (s.noteAppliedForCausality k).signalSubmit k

/-- The key under which a message is looked up and awaited. The slot of the sender is
its first position in the configured member list. -/
def keyOf (s : Substrate) (env : Envelope) : Option Key :=
  match s.members.idxOf? env.sender with
  | none => none
  | some slot =>
    if env.id.vectorClock.length ≤ slot then none
    else some ⟨env.sender, env.id.vectorClock.atSlot slot⟩

/-- `handleApplied`: one message of the order layer. -/
def handleApplied (K : FrameCodec) (s : Substrate) (log : MessageLog) (env : Envelope) :
    Substrate × MessageLog :=
  match K.unmarshal env.payload with
  | some (.watermark offset through) => s.handleWatermark log env.sender ⟨offset, through⟩
  | some (.app payload) =>
    match s.keyOf env with
    | none => (s, log)
    | some k =>
      (s.applyMessage ⟨env.id, payload, env.sender, localOffset log k, env.wave⟩ k, log)
  | _ => (s, log)

/-- The second half of `Submit`, after its message was sent: consume the marker of a
message that is already applied, or register the waiter. -/
def awaitSubmit (s : Substrate) (k : Key) : Substrate :=
  if k ∈ s.appliedSelf then
    { s with appliedSelf := s.appliedSelf.erase k, returned := s.returned ++ [k] }
  else { s with pendingApplies := s.pendingApplies.insert k }

/-- A submission whose context ends takes its waiter back. -/
def cancelSubmit (s : Substrate) (k : Key) : Substrate :=
  { s with pendingApplies := s.pendingApplies.erase k }

/-- `WaitForCausality` on a token for `k`, which the caller may give up again. -/
def waitForCausality (s : Substrate) (k : Key) : Substrate :=
  if k.seq ≤ (s.senderSeen.lookup k.sender).getD 0 then { s with released := s.released ++ [k] }
  else { s with waiters := s.waiters ++ [k] }

def cancelWait (s : Substrate) (k : Key) : Substrate := { s with waiters := s.waiters.erase k }

/-- The synchronous part of `AdvanceSnapshotWatermark`; the broadcast follows on a
goroutine. -/
def advanceSnapshotWatermark (s : Substrate) (through : ℕ) : Substrate :=
  if through ≤ s.snapshotWmk then s
  else
    let applied := if s.appliedOffset < through then through else s.appliedOffset
    { s with
      snapshotWmk := through
      trim := (s.trim.update s.self ⟨applied, through⟩).1
      toPublish := s.toPublish ++ [(applied, through)] }

/-- The broadcast of the `i`-th watermark of those that goroutines still hold has been
sent, after which its goroutine will trim; a failed send ends the goroutine. -/
def published (s : Substrate) (i : ℕ) (sent : Bool) : Substrate :=
  { s with
    toPublish := s.toPublish.eraseIdx i
    trimDue := if sent then s.trimDue + 1 else s.trimDue }

end Substrate

/-- The payload is a frame with application data. -/
def FrameCodec.isApp (K : FrameCodec) (payload : List UInt8) : Bool :=
  match K.unmarshal payload with
  | some (.app _) => true
  | _ => false

namespace Substrate

variable {K : FrameCodec} {s s' : Substrate} {log log' : MessageLog} {env : Envelope}

theorem maybeTrim_cases (s : Substrate) (log : MessageLog) : s.maybeTrim log = log ∨
    ∃ f, s.trim.safeFrontier s.members = some f ∧ s.maybeTrim log = log.truncate f := by
  unfold maybeTrim
  split
  · exact Or.inl rfl
  · rename_i f hf
    split
    · exact Or.inl rfl
    · exact Or.inr ⟨f, hf, rfl⟩

/-- Everything that the apply pump does with one message. -/
inductive AppliedEffect (K : FrameCodec) (s : Substrate) (log : MessageLog) (env : Envelope) :
    Substrate → MessageLog → Prop
  | ignored (h : K.isApp env.payload = true → s.keyOf env = none) : AppliedEffect K s log env s log
  | watermark {offset through : ℕ} {log' : MessageLog}
      (h : K.unmarshal env.payload = some (.watermark offset through))
      (hlog : log' = log ∨ ∃ f, log' = log.truncate f ∧
        (s.trim.update env.sender ⟨offset, through⟩).1.safeFrontier s.members = some f) :
      AppliedEffect K s log env
        { s with trim := (s.trim.update env.sender ⟨offset, through⟩).1 } log'
  | message {payload : List UInt8} {k : Key}
      (h : K.unmarshal env.payload = some (.app payload)) (hk : s.keyOf env = some k) :
      AppliedEffect K s log env
        (s.applyMessage ⟨env.id, payload, env.sender, localOffset log k, env.wave⟩ k) log

theorem isApp_iff {bytes : List UInt8} : K.isApp bytes = true ↔
    ∃ payload, K.unmarshal bytes = some (.app payload) := by
  unfold FrameCodec.isApp
  split
  · rename_i payload h
    exact ⟨fun _ => ⟨payload, h⟩, fun _ => rfl⟩
  · rename_i h
    exact ⟨nofun, fun ⟨payload, hp⟩ => absurd hp (h payload)⟩

theorem keyOf_congr (h : s'.members = s.members) : s'.keyOf env = s.keyOf env := by
  rw [keyOf, h, keyOf]

/-- A sender at a slot within its clock is looked up at its first slot. -/
theorem keyOf_eq_some {j : ℕ} (hj : s.members[j]? = some env.sender)
    (hlt : j < env.id.vectorClock.length) : ∃ i ≤ j, s.members[i]? = some env.sender ∧
      s.keyOf env = some ⟨env.sender, env.id.vectorClock.atSlot i⟩ := by
  cases hidx : s.members.idxOf? env.sender with
  | none => exact absurd (List.mem_of_getElem? hj) (List.idxOf?_eq_none_iff.mp hidx)
  | some i =>
    obtain ⟨hil, hi, hfirst⟩ := List.findIdx?_eq_some_iff_getElem.mp hidx
    have hle : i ≤ j := by
      by_contra hlt
      obtain ⟨hjl, hje⟩ := List.getElem?_eq_some_iff.mp hj
      exact hfirst j (Nat.lt_of_not_le hlt) (by simp [hje])
    refine ⟨i, hle, ?_, ?_⟩
    · rw [List.getElem?_eq_getElem hil, eq_of_beq hi]
    · rw [keyOf, hidx]
      exact if_neg (by omega)

theorem handleWatermark_effect {offset through : ℕ}
    (h : K.unmarshal env.payload = some (.watermark offset through)) :
    AppliedEffect K s log env (s.handleWatermark log env.sender ⟨offset, through⟩).1
      (s.handleWatermark log env.sender ⟨offset, through⟩).2 := by
  unfold handleWatermark
  split
  · refine .watermark h ?_
    rcases maybeTrim_cases { s with trim := (s.trim.update env.sender ⟨offset, through⟩).1 } log
      with he | ⟨f, hf, he⟩
    · exact Or.inl he
    · exact Or.inr ⟨f, he, hf⟩
  · refine .ignored fun happ => ?_
    obtain ⟨payload, hp⟩ := isApp_iff.mp happ
    rw [h] at hp
    cases hp

theorem handleApplied_effect (K : FrameCodec) (s : Substrate) (log : MessageLog)
    (env : Envelope) :
    AppliedEffect K s log env (s.handleApplied K log env).1 (s.handleApplied K log env).2 := by
  unfold handleApplied
  split
  · rename_i offset through h
    exact handleWatermark_effect h
  · rename_i payload h
    split
    · rename_i hk
      exact .ignored fun _ => hk
    · rename_i k hk
      exact .message h hk
  · rename_i h
    refine .ignored fun happ => ?_
    obtain ⟨payload, hp⟩ := isApp_iff.mp happ
    exact absurd hp (h payload)

section ApplyMessage
variable (msg : Message) (k : Key)

/-- Signalling a submission touches nothing but the waiters. -/
theorem signalSubmit_eq (s : Substrate) : s.signalSubmit k =
    { s with
      pendingApplies := (s.signalSubmit k).pendingApplies
      appliedSelf := (s.signalSubmit k).appliedSelf
      returned := (s.signalSubmit k).returned } := by
  unfold signalSubmit
  split
  · rfl
  · split <;> rfl

/-- Beside the waiters, an application message changes the two records of what was
applied. -/
theorem applyMessage_eq (s : Substrate) : s.applyMessage msg k =
    { s with
      applied := if s.Covered msg.offset then s.applied else s.applied ++ [msg]
      appliedOffset := max s.appliedOffset msg.offset
      senderSeen := (s.applyMessage msg k).senderSeen
      waiters := (s.applyMessage msg k).waiters
      released := (s.applyMessage msg k).released
      pendingApplies := (s.applyMessage msg k).pendingApplies
      appliedSelf := (s.applyMessage msg k).appliedSelf
      returned := (s.applyMessage msg k).returned } := by
  unfold applyMessage
  dsimp only
  rw [signalSubmit_eq]
  split <;> rfl

@[simp] theorem members_applyMessage : (s.applyMessage msg k).members = s.members := by
  rw [applyMessage_eq]

@[simp] theorem self_applyMessage : (s.applyMessage msg k).self = s.self := by
  rw [applyMessage_eq]

@[simp] theorem snapshotThrough_applyMessage :
    (s.applyMessage msg k).snapshotThrough = s.snapshotThrough := by rw [applyMessage_eq]

@[simp] theorem trim_applyMessage : (s.applyMessage msg k).trim = s.trim := by
  rw [applyMessage_eq]

@[simp] theorem toPublish_applyMessage : (s.applyMessage msg k).toPublish = s.toPublish := by
  rw [applyMessage_eq]

@[simp] theorem appliedOffset_applyMessage :
    (s.applyMessage msg k).appliedOffset = max s.appliedOffset msg.offset := by
  rw [applyMessage_eq]

@[simp] theorem senderSeen_applyMessage : (s.applyMessage msg k).senderSeen =
    if (s.senderSeen.lookup k.sender).getD 0 < k.seq then s.senderSeen.insert k.sender k.seq
    else s.senderSeen := by
  unfold applyMessage
  dsimp only
  rw [signalSubmit_eq]
  split <;> rfl

@[simp] theorem released_applyMessage : (s.applyMessage msg k).released =
    s.released ++ s.waiters.filter fun w => w.sender = k.sender ∧ w.seq ≤ k.seq := by
  unfold applyMessage
  dsimp only
  rw [signalSubmit_eq]
  split <;> rfl

@[simp] theorem applied_applyMessage : (s.applyMessage msg k).applied =
    if s.Covered msg.offset then s.applied else s.applied ++ [msg] := by
  rw [applyMessage_eq]

end ApplyMessage

section Waiters

/-- Nothing but waiters and their markers changes, a submission returns only on the marker
of its message and a causality wait only on a number that was applied of its sender. -/
structure WaitersOnly (s s' : Substrate) : Prop where
  frame : s' = { s with
    pendingApplies := s'.pendingApplies
    appliedSelf := s'.appliedSelf
    returned := s'.returned
    waiters := s'.waiters
    released := s'.released }
  appliedSelf : ∀ k ∈ s'.appliedSelf, k ∈ s.appliedSelf
  returned : ∀ k ∈ s'.returned, k ∈ s.returned ∨ k ∈ s.appliedSelf
  released : ∀ k ∈ s'.released, k ∈ s.released ∨
    k.seq ≤ (s.senderSeen.lookup k.sender).getD 0

theorem waitersOnly_awaitSubmit (s : Substrate) (k : Key) : WaitersOnly s (s.awaitSubmit k) := by
  unfold awaitSubmit
  split
  · rename_i hk
    refine ⟨rfl, fun k' hk' => List.mem_of_mem_erase hk', ?_, fun _ h => Or.inl h⟩
    intro k' hk'
    rcases List.mem_append.mp hk' with hk' | hk'
    · exact Or.inl hk'
    · rw [List.mem_singleton.mp hk']
      exact Or.inr hk
  · exact ⟨rfl, fun _ h => h, fun _ h => Or.inl h, fun _ h => Or.inl h⟩

theorem waitersOnly_cancelSubmit (s : Substrate) (k : Key) : WaitersOnly s (s.cancelSubmit k) :=
  ⟨rfl, fun _ h => h, fun _ h => Or.inl h, fun _ h => Or.inl h⟩

theorem waitersOnly_waitForCausality (s : Substrate) (k : Key) :
    WaitersOnly s (s.waitForCausality k) := by
  unfold waitForCausality
  split
  · rename_i hseen
    refine ⟨rfl, fun _ h => h, fun _ h => Or.inl h, ?_⟩
    intro k' hk'
    rcases List.mem_append.mp hk' with hk' | hk'
    · exact Or.inl hk'
    · rw [List.mem_singleton.mp hk']
      exact Or.inr hseen
  · exact ⟨rfl, fun _ h => h, fun _ h => Or.inl h, fun _ h => Or.inl h⟩

theorem waitersOnly_cancelWait (s : Substrate) (k : Key) : WaitersOnly s (s.cancelWait k) :=
  ⟨rfl, fun _ h => h, fun _ h => Or.inl h, fun _ h => Or.inl h⟩

/-- Nothing was passed to `Apply`, and no submission returned but on its marker. -/
structure SameRecords (s s' : Substrate) : Prop where
  snapshotThrough : s'.snapshotThrough = s.snapshotThrough
  applied : s'.applied = s.applied
  appliedOffset : s'.appliedOffset = s.appliedOffset
  appliedSelf : ∀ k ∈ s'.appliedSelf, k ∈ s.appliedSelf
  returned : ∀ k ∈ s'.returned, k ∈ s.returned ∨ k ∈ s.appliedSelf

theorem SameRecords.refl (s : Substrate) : SameRecords s s :=
  ⟨rfl, rfl, rfl, fun _ h => h, fun _ h => Or.inl h⟩

theorem WaitersOnly.sameRecords (h : WaitersOnly s s') : SameRecords s s' := by
  refine ⟨?_, ?_, ?_, h.appliedSelf, h.returned⟩ <;> rw [h.frame]

theorem advanceSnapshotWatermark_eq (s : Substrate) (through : ℕ) :
    s.advanceSnapshotWatermark through = { s with
      snapshotWmk := (s.advanceSnapshotWatermark through).snapshotWmk
      trim := (s.advanceSnapshotWatermark through).trim
      toPublish := (s.advanceSnapshotWatermark through).toPublish } := by
  unfold advanceSnapshotWatermark
  split <;> rfl

/-- An advance enters the own watermark and leaves its broadcast to be sent. -/
theorem advanceSnapshotWatermark_cases (s : Substrate) (through : ℕ) :
    s.advanceSnapshotWatermark through = s ∨ ∃ applied,
      (s.advanceSnapshotWatermark through).trim = (s.trim.update s.self ⟨applied, through⟩).1 ∧
      (s.advanceSnapshotWatermark through).toPublish = s.toPublish ++ [(applied, through)] := by
  unfold advanceSnapshotWatermark
  split
  · exact Or.inl rfl
  · exact Or.inr ⟨_, rfl, rfl⟩

theorem signalled_signalSubmit (s : Substrate) (k : Key) :
    (∀ k' ∈ (s.signalSubmit k).appliedSelf, k' ∈ s.appliedSelf ∨ k' = k) ∧
      ∀ k' ∈ (s.signalSubmit k).returned, k' ∈ s.returned ∨ k' = k := by
  unfold signalSubmit
  split
  · exact ⟨fun _ h => Or.inl h, fun k' h => by simpa using h⟩
  · split
    · exact ⟨fun k' h => by simpa [or_comm] using h, fun _ h => Or.inl h⟩
    · exact ⟨fun _ h => Or.inl h, fun _ h => Or.inl h⟩

/-- The only submission that an application message can complete is its own. -/
theorem signalled_applyMessage (s : Substrate) (msg : Message) (k : Key) :
    (∀ k' ∈ (s.applyMessage msg k).appliedSelf, k' ∈ s.appliedSelf ∨ k' = k) ∧
      ∀ k' ∈ (s.applyMessage msg k).returned, k' ∈ s.returned ∨ k' = k := by
  unfold applyMessage
  dsimp only
  split
  · exact signalled_signalSubmit _ k
  · exact signalled_signalSubmit _ k

end Waiters

end Substrate
end Comlink
