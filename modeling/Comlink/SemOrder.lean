import Comlink.TotalOrder
import Mathlib.Data.List.Sort

/-!
# The semantic order layer

The pump of `order/semorder.go`. Operations of class 1 are applied as soon as their
causal predecessors are; all others wave by wave, sorted by sender, once their wave is
complete and every active replica has been observed in a later one. The layer keeps its
own copy of what it needs to know: the membership as it was at construction, the
messages by wave, and the newest clock of every replica. It never calls back into its
conversation, so that the work done for one delivery is one step. The list
`deferredEager` of the source is left out, as nothing is ever put on it.

The two loops are by fuel: a pass of eager executions that makes progress executes an
observed message, and every round of `advanceWave` moves to a later observed wave.
-/
namespace Comlink
open SortedPermutations ListScans

structure SemOrder where
  classifier : List UInt8 → ℤ
  membership : Membership
  currentWave : ℕ
  executed : List Key
  messagesByWave : AList (fun _ : ℕ => List Envelope)
  seenInWave : AList (fun _ : ℕ => List Key)
  latestVector : AList (fun _ : ReplicaID => VectorClock)
  received : ℕ
  emitted : List Envelope

/-- What a step leaves to the runtime: the order in which a pass, told apart by the number
of operations executed before it, goes through the waves, and the result of a sort. -/
structure SemChoices where
  waves : ℕ → List ℕ → List ℕ
  waves_perm : ∀ n ws, (waves n ws).Perm ws
  sort : List Envelope → List Envelope
  sort_isSortOf : ∀ envs, IsSortOf bySender envs (sort envs)

/-- Waves as they come, and a stable sort. -/
def SemChoices.standard : SemChoices where
  waves _ ws := ws
  waves_perm _ ws := .refl ws
  sort := List.insertionSort fun a b => ¬ bySender b a
  sort_isSortOf envs := by
    have htotal : Std.Total fun a b : Envelope => ¬ bySender b a :=
      ⟨fun a b => List.le_total a.sender b.sender⟩
    have htrans : IsTrans Envelope fun a b => ¬ bySender b a :=
      ⟨fun a b c hab hbc => List.le_trans hab hbc⟩
    exact ⟨List.perm_insertionSort _ envs, List.pairwise_insertionSort _ envs⟩

/-- `dominatesOrEqual`: componentwise, and only between clocks of one length. -/
def VectorClock.dominatesOrEqual (a b : VectorClock) : Bool :=
  a.length = b.length && (List.range a.length).all fun i => decide (b.atSlot i ≤ a.atSlot i)

namespace SemOrder

def new (classifier : List UInt8 → ℤ) (membership : Membership) : SemOrder :=
  ⟨classifier, membership, 1, [], ∅, ∅, ∅, 0, []⟩

/-- The messages received in a wave. -/
def inWave (o : SemOrder) (w : ℕ) : List Envelope := (o.messagesByWave.lookup w).getD []

/-- `observe`: put a new message into its wave and note the clock of its sender. -/
def observe (o : SemOrder) (env : Envelope) : SemOrder :=
  match o.membership.senderSeq env.id with
  | none => o
  | some seq =>
    let key : Key := ⟨env.sender, seq⟩
    let seen := (o.seenInWave.lookup env.wave).getD []
    if key ∈ seen then o
    else
      let newer := match o.latestVector.lookup env.sender with
        | none => true
        | some existing => env.id.vectorClock.dominatesOrEqual existing
      { o with
        seenInWave := o.seenInWave.insert env.wave (key :: seen)
        messagesByWave := o.messagesByWave.insert env.wave (o.inWave env.wave ++ [env])
        latestVector :=
          if newer then o.latestVector.insert env.sender env.id.vectorClock
          else o.latestVector }

def isClass1 (o : SemOrder) (env : Envelope) : Bool := o.classifier env.payload = 1

def isExecuted (o : SemOrder) (env : Envelope) : Bool :=
  match o.membership.senderSeq env.id with
  | none => false
  | some seq => decide (⟨env.sender, seq⟩ ∈ o.executed)

def applyEnv (o : SemOrder) (env : Envelope) : SemOrder :=
  match o.membership.senderSeq env.id with
  | none => o
  | some seq =>
    { o with executed := ⟨env.sender, seq⟩ :: o.executed, emitted := o.emitted ++ [env] }

/-- One entry of the clock in `predecessorsExecuted`. -/
def entryExecuted (o : SemOrder) (sender : ReplicaID) (slot seq : ℕ) (entry : ℕ × ℕ) : Bool :=
  if entry.2 = slot then decide (seq ≤ 1) || decide (⟨sender, seq - 1⟩ ∈ o.executed)
  else decide (entry.1 = 0) || match o.membership.allReplicas[entry.2]? with
    | none => false
    | some r => decide (⟨r, entry.1⟩ ∈ o.executed)

def predecessorsExecuted (o : SemOrder) (env : Envelope) : Bool :=
  match o.membership.slotOf env.sender, o.membership.senderSeq env.id with
  | some slot, some seq => env.id.vectorClock.zipIdx.all (o.entryExecuted env.sender slot seq)
  | _, _ => false

/-- One message of a pass, with the flag whether the pass has made progress. -/
def eagerStep (st : SemOrder × Bool) (env : Envelope) : SemOrder × Bool :=
  if st.1.isClass1 env && !st.1.isExecuted env && st.1.predecessorsExecuted env then
    (st.1.applyEnv env, true)
  else st

def eagerPass (ch : SemChoices) (o : SemOrder) : SemOrder × Bool :=
  ((ch.waves o.executed.length o.messagesByWave.keys).flatMap o.inWave).foldl eagerStep (o, false)

def eagerLoop (ch : SemChoices) : ℕ → SemOrder → SemOrder
  | 0, o => o
  | fuel + 1, o =>
    if (o.eagerPass ch).2 then eagerLoop ch fuel (o.eagerPass ch).1 else (o.eagerPass ch).1

def observedCount (o : SemOrder) : ℕ := (o.messagesByWave.keys.flatMap o.inWave).length

def tryEagerExecutions (ch : SemChoices) (o : SemOrder) : SemOrder :=
  o.eagerLoop ch (o.observedCount + 1)

/-- One slot of `isMessageStableLocal`. -/
def acknowledges (o : SemOrder) (env : Envelope) (slot seq : ℕ) (entry : Slot × ℕ) : Bool :=
  decide (entry.2 = slot) || entry.1.frozen || decide (entry.1.replica = env.sender) ||
    match o.latestVector.lookup entry.1.replica with
    | none => false
    | some latest => decide (seq ≤ latest.atSlot slot)

def isMessageStableLocal (o : SemOrder) (env : Envelope) : Bool :=
  match o.membership.slotOf env.sender, o.membership.senderSeq env.id with
  | some slot, some seq => o.membership.slots.zipIdx.all (o.acknowledges env slot seq)
  | _, _ => false

def waveCompleteLocal (o : SemOrder) (w : ℕ) : Bool := (o.inWave w).any o.isMessageStableLocal

def continuationProperty (o : SemOrder) : Bool :=
  o.membership.replicas.all fun r => match o.latestVector.lookup r with
    | none => false
    | some latest => decide (o.currentWave < VectorClock.waveOf latest)

def maxObservedWave (o : SemOrder) : ℕ := runningMax o.messagesByWave.keys

/-- `findNextStrictWave`: the first wave from `start` on with an operation of another
class than 1. -/
def findNextStrictWave (o : SemOrder) (start : ℕ) : Option ℕ :=
  (List.range' start (o.maxObservedWave + 1 - start)).find? fun w =>
    (o.inWave w).any fun env => !o.isClass1 env

def strictStep (o : SemOrder) (env : Envelope) : SemOrder :=
  if o.isClass1 env || o.isExecuted env then o else o.applyEnv env

/-- The strict operations of the current wave, whose bucket is sorted in place. -/
def drainWave (ch : SemChoices) (o : SemOrder) : SemOrder :=
  let envs := ch.sort (o.inWave o.currentWave)
  envs.foldl strictStep
    { o with messagesByWave := o.messagesByWave.insert o.currentWave envs }

def advanceLoop (ch : SemChoices) : ℕ → SemOrder → SemOrder
  | 0, o => o
  | fuel + 1, o =>
    if o.waveCompleteLocal o.currentWave && o.continuationProperty then
      let o := (o.drainWave ch).tryEagerExecutions ch
      match o.findNextStrictWave (o.currentWave + 1) with
      | none => o
      | some next => advanceLoop ch fuel { o with currentWave := next }
    else o

def advanceWave (ch : SemChoices) (o : SemOrder) : SemOrder :=
  o.advanceLoop ch (o.maxObservedWave + 2)

/-- One delivery of the pump; `none` when there is nothing to receive. -/
def pump (c : Conversation) (o : SemOrder) (ch : SemChoices) : Option SemOrder :=
  (c.delivered[o.received]?).map fun env =>
    (({ o.observe env with received := o.received + 1 }).tryEagerExecutions ch).advanceWave ch

section Moves

variable {P Q : Envelope → Prop} {o o' : SemOrder} {env : Envelope} {ch : SemChoices}

/-- What the work on one delivery consists of once the message is stored. -/
inductive Move : SemOrder → SemOrder → Prop
  | apply {o : SemOrder} {env : Envelope} {w : ℕ} (h : env ∈ o.inWave w) : Move o (o.applyEnv env)
  | sort {o : SemOrder} {w : ℕ} {envs : List Envelope} (h : envs.Perm (o.inWave w)) :
      Move o { o with messagesByWave := o.messagesByWave.insert w envs }
  | advance {o : SemOrder} (w : ℕ) : Move o { o with currentWave := w }

abbrev Moves : SemOrder → SemOrder → Prop := Relation.ReflTransGen Move

theorem inWave_applyEnv (o : SemOrder) (env : Envelope) (w : ℕ) :
    (o.applyEnv env).inWave w = o.inWave w := by
  unfold applyEnv
  split <;> rfl

theorem inWave_insert {w : ℕ} {envs : List Envelope}
    (h : o'.messagesByWave = o.messagesByWave.insert w envs) (w' : ℕ) :
    o'.inWave w' = if w' = w then envs else o.inWave w' := by
  unfold inWave
  rw [h]
  by_cases hw : w' = w
  · subst hw
    simp
  · simp [hw]

/-- What holds before a pass of eager executions and survives each of them holds after it. -/
theorem foldl_eagerStep_induction {P : SemOrder → Prop}
    (hP : ∀ o env w, P o → env ∈ o.inWave w → o.isClass1 env = true → o.isExecuted env = false →
      o.predecessorsExecuted env = true → P (o.applyEnv env))
    {envs : List Envelope} (he : ∀ e ∈ envs, ∃ w, e ∈ o.inWave w) (h : P o) (progressed : Bool) :
    P (envs.foldl eagerStep (o, progressed)).1 := by
  induction envs generalizing o progressed with
  | nil => exact h
  | cons env envs ih =>
    obtain ⟨⟨w, hw⟩, hrest⟩ := List.forall_mem_cons.mp he
    rw [List.foldl_cons, eagerStep]
    split
    · rename_i hcond
      simp only [Bool.and_eq_true, Bool.not_eq_true'] at hcond
      refine ih ?_ (hP o env w h hw hcond.1.1 hcond.1.2 hcond.2) true
      simpa only [inWave_applyEnv] using hrest
    · exact ih hrest h progressed

theorem eagerLoop_induction {P : SemOrder → Prop}
    (hP : ∀ o env w, P o → env ∈ o.inWave w → o.isClass1 env = true → o.isExecuted env = false →
      o.predecessorsExecuted env = true → P (o.applyEnv env))
    (fuel : ℕ) (h : P o) : P (o.eagerLoop ch fuel) := by
  induction fuel generalizing o with
  | zero => exact h
  | succ fuel ih =>
    have hpass : P (o.eagerPass ch).1 := by
      refine foldl_eagerStep_induction hP ?_ h false
      intro e he
      obtain ⟨w, _, hw⟩ := List.mem_flatMap.mp he
      exact ⟨w, hw⟩
    rw [eagerLoop]
    split
    · exact ih hpass
    · exact hpass

theorem moves_foldl_strictStep {envs : List Envelope} (he : ∀ e ∈ envs, ∃ w, e ∈ o.inWave w) :
    Moves o (envs.foldl strictStep o) := by
  induction envs generalizing o with
  | nil => exact .refl
  | cons env envs ih =>
    obtain ⟨⟨w, hw⟩, hrest⟩ := List.forall_mem_cons.mp he
    rw [List.foldl_cons, strictStep]
    split
    · exact ih hrest
    · refine Relation.ReflTransGen.head (.apply hw) (ih ?_)
      simpa only [inWave_applyEnv] using hrest

theorem moves_eagerLoop (fuel : ℕ) (o : SemOrder) : Moves o (o.eagerLoop ch fuel) :=
  eagerLoop_induction (fun _ _ _ h hw _ _ _ => h.tail (.apply hw)) fuel .refl

theorem moves_drainWave (o : SemOrder) : Moves o (o.drainWave ch) := by
  refine Relation.ReflTransGen.head
    (.sort (ch.sort_isSortOf (o.inWave o.currentWave)).1) (moves_foldl_strictStep ?_)
  intro e he
  refine ⟨o.currentWave, ?_⟩
  rw [inWave, AList.lookup_insert]
  exact he

theorem moves_advanceLoop (fuel : ℕ) (o : SemOrder) : Moves o (o.advanceLoop ch fuel) := by
  induction fuel generalizing o with
  | zero => exact .refl
  | succ fuel ih =>
    rw [advanceLoop]
    split
    · have hround : Moves o ((o.drainWave ch).tryEagerExecutions ch) :=
        (moves_drainWave o).trans (moves_eagerLoop _ _)
      dsimp only
      split
      · exact hround
      · rename_i next _
        exact (hround.tail (.advance next)).trans (ih _)
    · exact .refl

theorem pump_moves {c : Conversation} (h : o.pump c ch = some o') :
    ∃ env, c.delivered[o.received]? = some env ∧
      Moves { o.observe env with received := o.received + 1 } o' := by
  obtain ⟨env, henv, rfl⟩ := Option.map_eq_some_iff.mp h
  exact ⟨env, henv, (moves_eagerLoop _ _).trans (moves_advanceLoop _ _)⟩

theorem Moves.kept (h : Moves o o') : o'.classifier = o.classifier ∧
    o'.membership = o.membership ∧ o'.received = o.received := by
  induction h with
  | refl => exact ⟨rfl, rfl, rfl⟩
  | tail _ hm ih =>
    cases hm with
    | apply hw =>
      unfold applyEnv
      split <;> exact ih
    | sort _ => exact ih
    | advance _ => exact ih

theorem Moves.emitted (h : Moves o o') : o.emitted <+: o'.emitted := by
  induction h with
  | refl => exact List.prefix_rfl
  | tail _ hm ih =>
    refine ih.trans ?_
    cases hm with
    | apply hw =>
      unfold applyEnv
      split
      · exact List.prefix_rfl
      · exact List.prefix_append _ _
    | sort _ => exact List.prefix_rfl
    | advance _ => exact List.prefix_rfl

theorem emitted_observe (o : SemOrder) (env : Envelope) : (o.observe env).emitted = o.emitted := by
  unfold observe
  split
  · rfl
  · dsimp only
    split <;> rfl

theorem kept_observe (o : SemOrder) (env : Envelope) :
    (o.observe env).classifier = o.classifier ∧ (o.observe env).membership = o.membership := by
  unfold observe
  split
  · exact ⟨rfl, rfl⟩
  · dsimp only
    split <;> exact ⟨rfl, rfl⟩

theorem pump_kept {c : Conversation} (h : o.pump c ch = some o') :
    o'.classifier = o.classifier ∧ o'.membership = o.membership ∧
      o'.received = o.received + 1 := by
  obtain ⟨env, _, hm⟩ := pump_moves h
  obtain ⟨hc, hmem, hr⟩ := hm.kept
  exact ⟨hc.trans (kept_observe o env).1, hmem.trans (kept_observe o env).2, hr⟩

theorem emitted_pump {c : Conversation} (h : o.pump c ch = some o') :
    o.emitted <+: o'.emitted := by
  obtain ⟨env, _, hm⟩ := pump_moves h
  have hpre := hm.emitted
  rwa [emitted_observe] at hpre

/-- Every message that the layer has stored or emitted satisfies `P`. -/
structure Holds (P : Envelope → Prop) (o : SemOrder) : Prop where
  stored : ∀ w, ∀ e ∈ o.inWave w, P e
  emitted : ∀ e ∈ o.emitted, P e

theorem holds_new (classifier : List UInt8 → ℤ) (m : Membership) : Holds P (new classifier m) := by
  refine ⟨?_, nofun⟩
  intro w e he
  cases he

theorem Holds.mono (h : Holds P o) (hPQ : ∀ e, P e → Q e) : Holds Q o :=
  ⟨fun w e he => hPQ e (h.stored w e he), fun e he => hPQ e (h.emitted e he)⟩

theorem Holds.insert (h : Holds P o) {w : ℕ} {envs : List Envelope} (he : ∀ e ∈ envs, P e)
    (hm : o'.messagesByWave = o.messagesByWave.insert w envs) (hout : o'.emitted = o.emitted) :
    Holds P o' := by
  refine ⟨?_, fun e hmem => h.emitted e (hout ▸ hmem)⟩
  intro w' e hmem
  rw [inWave_insert hm] at hmem
  split at hmem
  · exact he e hmem
  · exact h.stored w' e hmem

theorem Holds.observe (h : Holds P o) (he : P env) : Holds P (o.observe env) := by
  unfold SemOrder.observe
  split
  · exact h
  · dsimp only
    split
    · exact h
    · refine h.insert ?_ rfl rfl
      intro e hmem
      rcases List.mem_append.mp hmem with hmem | hmem
      · exact h.stored _ e hmem
      · rwa [List.mem_singleton.mp hmem]

theorem Holds.move (h : Holds P o) (hm : Move o o') : Holds P o' := by
  cases hm with
  | @apply env w hw =>
    refine ⟨fun w' e he => h.stored w' e (by rwa [inWave_applyEnv] at he), ?_⟩
    unfold applyEnv
    split
    · exact h.emitted
    · intro e he
      rcases List.mem_append.mp he with he | he
      · exact h.emitted e he
      · rw [List.mem_singleton.mp he]
        exact h.stored w env hw
  | sort hp => exact h.insert (fun e he => h.stored _ e (hp.mem_iff.mp he)) rfl rfl
  | advance w => exact ⟨h.stored, h.emitted⟩

theorem Holds.moves (h : Holds P o) (hm : Moves o o') : Holds P o' := by
  induction hm with
  | refl => exact h
  | tail _ hm ih => exact ih.move hm

theorem Holds.pump {c : Conversation} (h : Holds P o) (hc : ∀ e ∈ c.delivered, P e)
    (hp : o.pump c ch = some o') : Holds P o' := by
  obtain ⟨env, henv, hm⟩ := pump_moves hp
  have hobs := h.observe (hc env (List.mem_of_getElem? henv))
  have hnoted : Holds P { o.observe env with received := o.received + 1 } :=
    ⟨hobs.stored, hobs.emitted⟩
  exact hnoted.moves hm

end Moves

end SemOrder
end Comlink
