import Comlink.GuardedRuns
import Mathlib.Algebra.Order.Ring.Int
import Mathlib.Data.List.Nodup

/-!
# The write batcher of the key-value store

`submit` puts an entry on the channel `in` and waits until its `done` channel is closed. One
loop takes entries off `in`, gathers what else is queued into a batch, submits the batch and
closes the `done` channels of its entries. The stop branch of the loop looks only at the
entries of the batch, and there are none when it is taken. So an entry that is still queued
then, or queued later, is never completed.
-/
namespace Comlink
open GuardedRuns

inductive BatchError where
  | marshal
  | submit
  | closed
  deriving DecidableEq, Repr

/-- What the entries of a batch are told. -/
inductive BatchResult where
  | token (t : List UInt8)
  | err (e : BatchError)
  deriving DecidableEq, Repr

structure BatchingConfig where
  maxBatchOps : ℤ
  maxBatchBytes : ℤ
  deriving Repr

/-- The defaults of `newBatcher`. -/
def BatchingConfig.fill (cfg : BatchingConfig) : BatchingConfig where
  maxBatchOps := if cfg.maxBatchOps ≤ 0 then 256 else cfg.maxBatchOps
  maxBatchBytes := if cfg.maxBatchBytes ≤ 0 then 4 * 2 ^ 20 else cfg.maxBatchBytes

/-- Where a call of `submit` is: in one of its two selects, or back at its caller. -/
inductive CallerStage where
  | enqueue
  | await
  | cancelled
  | refused
  | done (r : BatchResult)
  deriving DecidableEq, Repr

structure BatchCall where
  bytes : ℕ
  stage : CallerStage
  deriving DecidableEq, Repr

/-- Where the loop is. While it completes entries it closes one `done` channel after the
other; after those of the stop branch it exits. -/
inductive LoopStage where
  | select
  | drain
  | flush
  | complete (entries : List ℕ) (r : BatchResult)
  | abort (entries : List ℕ)
  | exited
  deriving DecidableEq, Repr

/-- Entries are named by their calls. `placed`, `batches` and `closed` are histories: of the
sends on `in`, of the calls of `Submit` and of the closed `done` channels. -/
structure Batcher where
  cfg : BatchingConfig
  calls : List BatchCall
  queue : List ℕ
  pending : List ℕ
  stage : LoopStage
  stopped : Bool
  placed : List ℕ
  batches : List (List ℕ × BatchResult)
  closed : List (ℕ × BatchResult)

inductive BatcherAction where
  | call (bytes : ℕ)
  | enqueue (i : ℕ)
  | cancel (i : ℕ)
  | refuse (i : ℕ)
  | wake (i : ℕ)
  | close
  | stop
  | take
  | drain
  | flush (r : BatchResult)
  | complete
  deriving DecidableEq, Repr

/-- The actions of callers, but for the send on `in`. -/
def BatcherAction.isCaller : BatcherAction → Bool
  | .call _ | .cancel _ | .refuse _ | .wake _ | .close => true
  | _ => false

namespace Batcher

def inCapacity : ℕ := 1024

def new (cfg : BatchingConfig) : Batcher where
  cfg := cfg.fill
  calls := []
  queue := []
  pending := []
  stage := .select
  stopped := false
  placed := []
  batches := []
  closed := []

def stageOf (b : Batcher) (i : ℕ) : Option CallerStage := (b.calls[i]?).map BatchCall.stage

def setStage (b : Batcher) (i : ℕ) (st : CallerStage) : Batcher :=
  { b with calls := b.calls.modify i fun c => { c with stage := st } }

/-- What the `done` channel of an entry has been closed with. -/
def resultOf (b : Batcher) (i : ℕ) : Option BatchResult :=
  (b.closed.find? fun c => c.1 = i).map Prod.snd

def batchBytes (b : Batcher) : ℕ :=
  (b.pending.map fun i => ((b.calls[i]?).map BatchCall.bytes).getD 0).sum

/-- A cap of the batch is reached. -/
def Full (b : Batcher) : Prop :=
  b.cfg.maxBatchOps ≤ b.pending.length ∨ b.cfg.maxBatchBytes ≤ b.batchBytes

instance (b : Batcher) : Decidable b.Full := inferInstanceAs (Decidable (_ ∨ _))

/-- The first select of `submit`, on its way to the second. -/
def enqueue (b : Batcher) (i : ℕ) : Option Batcher :=
  if b.stageOf i = some .enqueue ∧ b.queue.length < inCapacity then
    some { b.setStage i .await with queue := b.queue ++ [i], placed := b.placed ++ [i] }
  else none

/-- The context of a call ends, in either select. -/
def cancel (b : Batcher) (i : ℕ) : Option Batcher :=
  if b.stageOf i = some .enqueue ∨ b.stageOf i = some .await then some (b.setStage i .cancelled)
  else none

/-- The first select of `submit` finds the batcher closed. -/
def refuse (b : Batcher) (i : ℕ) : Option Batcher :=
  if b.stageOf i = some .enqueue ∧ b.stopped then some (b.setStage i .refused) else none

/-- The second select of `submit` finds the entry completed. -/
def wake (b : Batcher) (i : ℕ) : Option Batcher :=
  if b.stageOf i = some .await then (b.resultOf i).map fun r => b.setStage i (.done r) else none

/-- The stop branch of the loop, up to `abortPending`. -/
def stop (b : Batcher) : Option Batcher :=
  if b.stage = .select ∧ b.stopped then some { b with stage := .abort b.pending, pending := [] }
  else none

/-- The other branch of the loop, up to `drainAvailable`. -/
def take (b : Batcher) : Option Batcher :=
  match b.stage, b.queue with
  | .select, i :: queue =>
    some { b with stage := .drain, queue := queue, pending := b.pending ++ [i] }
  | _, _ => none

/-- One iteration of `drainAvailable`. -/
def drain (b : Batcher) : Option Batcher :=
  if b.stage = .drain then
    if b.Full then some { b with stage := .flush }
    else match b.queue with
      | [] => some { b with stage := .flush }
      | i :: queue => some { b with queue := queue, pending := b.pending ++ [i] }
  else none

/-- `flush` up to the end of `Submit`, or to the error of `Marshal`. -/
def flush (b : Batcher) (r : BatchResult) : Option Batcher :=
  if b.stage = .flush then
    if b.pending = [] then some { b with stage := .select }
    else some
      { b with
        stage := .complete b.pending r
        pending := []
        batches := b.batches ++ [(b.pending, r)] }
  else none

/-- The loop closes the next `done` channel, or is through with them. -/
def complete (b : Batcher) : Option Batcher :=
  match b.stage with
  | .complete (i :: rest) r =>
    some { b with stage := .complete rest r, closed := b.closed ++ [(i, r)] }
  | .complete [] _ => some { b with stage := .select }
  | .abort (i :: rest) =>
    some { b with stage := .abort rest, closed := b.closed ++ [(i, .err .closed)] }
  | .abort [] => some { b with stage := .exited }
  | _ => none

def step (b : Batcher) : BatcherAction → Option Batcher
  | .call bytes => some { b with calls := b.calls ++ [⟨bytes, .enqueue⟩] }
  | .enqueue i => b.enqueue i
  | .cancel i => b.cancel i
  | .refuse i => b.refuse i
  | .wake i => b.wake i
  | .close => some { b with stopped := true }
  | .stop => b.stop
  | .take => b.take
  | .drain => b.drain
  | .flush r => b.flush r
  | .complete => b.complete

/-- The loop has taken its stop branch. -/
def Stopping (b : Batcher) : Prop :=
  match b.stage with
  | .abort _ | .exited => True
  | _ => False

instance (b : Batcher) : Decidable b.Stopping := by
  unfold Stopping
  split <;> infer_instance

/-- The loop stops only when nothing is queued, and nothing is queued after that. -/
def Orderly (b : Batcher) : BatcherAction → Prop
  | .stop => b.queue = []
  | .enqueue _ => ¬ b.Stopping
  | _ => True

instance (b : Batcher) (a : BatcherAction) : Decidable (b.Orderly a) :=
  match a with
  | .stop => inferInstanceAs (Decidable (b.queue = []))
  | .enqueue _ => inferInstanceAs (Decidable (¬ b.Stopping))
  | .call _ | .cancel _ | .refuse _ | .wake _ | .close | .take | .drain | .flush _
  | .complete => isTrue trivial

variable {b b' : Batcher} {i j : ℕ} {st : CallerStage}

section Calls

theorem stageOf_setStage_self (h : b.stageOf i = some st) (st' : CallerStage) :
    (b.setStage i st').stageOf i = some st' := by
  obtain ⟨c, hc, -⟩ := Option.map_eq_some_iff.mp h
  simp [stageOf, setStage, hc]

theorem stageOf_setStage_of_ne (h : j ≠ i) (b : Batcher) (st' : CallerStage) :
    (b.setStage i st').stageOf j = b.stageOf j := by
  simp [stageOf, setStage, Ne.symm h]

theorem stageOf_call {bytes : ℕ} : stageOf { b with calls := b.calls ++ [⟨bytes, .enqueue⟩] } i =
    if i = b.calls.length then some .enqueue else b.stageOf i := by
  unfold stageOf
  rcases Nat.lt_trichotomy i b.calls.length with hlt | rfl | hgt
  · simp [List.getElem?_append_left hlt, Nat.ne_of_lt hlt]
  · simp
  · have hle := Nat.le_of_lt hgt
    rw [List.getElem?_eq_none hle, if_neg (Nat.ne_of_gt hgt),
      List.getElem?_eq_none (by simp; omega)]

end Calls

/-- The entries whose `done` channels the loop is closing. -/
def closing (b : Batcher) : List ℕ :=
  match b.stage with
  | .complete entries _ | .abort entries => entries
  | _ => []

/-- Those of a batch, with its result. -/
def answering (b : Batcher) : List (ℕ × BatchResult) :=
  match b.stage with
  | .complete entries r => entries.map fun i => (i, r)
  | _ => []

/-- What holds of a batcher and its callers throughout. -/
structure Sound (b : Batcher) : Prop where
  placed : b.placed = b.closed.map Prod.fst ++ b.closing ++ b.pending ++ b.queue
  nodup : b.placed.Nodup
  left : ∀ i ∈ b.placed, ∃ st, b.stageOf i = some st ∧ st ≠ .enqueue
  await : ∀ i, b.stageOf i = some .await → i ∈ b.placed
  batches : b.closed ++ b.answering = b.batches.flatMap fun x => x.1.map fun i => (i, x.2)
  idle : b.stage ≠ .drain → b.stage ≠ .flush → b.pending = []
  aborted : ∀ entries, b.stage = .abort entries → entries = []
  stopped : b.Stopping → b.stopped = true

theorem sound_new (cfg : BatchingConfig) : (new cfg).Sound where
  placed := rfl
  nodup := List.nodup_nil
  left i hi := by cases hi
  await i hi := by simp [stageOf, new] at hi
  batches := rfl
  idle _ _ := rfl
  aborted _ h := by cases h
  stopped h := by cases h

section Callers

/-- A call returns to its caller. -/
theorem Sound.returned (h : b.Sound) {st' : CallerStage} (hi : b.stageOf i = some st)
    (he : st' ≠ .enqueue) (ha : st' ≠ .await) : (b.setStage i st').Sound := by
  refine ⟨h.placed, h.nodup, fun j hj => ?_, fun j hj => ?_, h.batches, h.idle, h.aborted,
    h.stopped⟩
  · by_cases hji : j = i
    · subst hji
      exact ⟨st', stageOf_setStage_self hi st', he⟩
    · rw [stageOf_setStage_of_ne hji]
      exact h.left j hj
  · by_cases hji : j = i
    · subst hji
      rw [stageOf_setStage_self hi] at hj
      exact absurd (Option.some.inj hj) ha
    · rw [stageOf_setStage_of_ne hji] at hj
      exact h.await j hj

theorem Sound.call (h : b.Sound) (bytes : ℕ) :
    Sound { b with calls := b.calls ++ [⟨bytes, .enqueue⟩] } := by
  refine ⟨h.placed, h.nodup, fun i hi => ?_, fun i hi => ?_, h.batches, h.idle, h.aborted,
    h.stopped⟩
  · obtain ⟨st, hst, hne⟩ := h.left i hi
    have hlt : i ≠ b.calls.length := by
      intro heq
      simp [stageOf, heq] at hst
    exact ⟨st, by rw [stageOf_call, if_neg hlt, hst], hne⟩
  · rw [stageOf_call] at hi
    split at hi
    · cases hi
    · exact h.await i hi

theorem Sound.enqueue (h : b.Sound) (hs : b.enqueue i = some b') : b'.Sound := by
  unfold Batcher.enqueue at hs
  split at hs
  · rename_i hg
    cases hs
    have hnot : i ∉ b.placed := by
      intro hi
      obtain ⟨st, hst, hne⟩ := h.left i hi
      rw [hg.1] at hst
      exact hne (Option.some.inj hst).symm
    refine ⟨?_, ?_, fun j hj => ?_, fun j hj => ?_, h.batches, h.idle, h.aborted, h.stopped⟩
    · change b.placed ++ [i] = b.closed.map Prod.fst ++ b.closing ++ b.pending ++ (b.queue ++ [i])
      rw [h.placed]
      simp
    · exact List.nodup_append.mpr ⟨h.nodup, List.nodup_singleton i, fun a ha c hc => by
        rw [List.mem_singleton.mp hc]
        exact fun he => hnot (he ▸ ha)⟩
    · by_cases hji : j = i
      · subst hji
        exact ⟨.await, stageOf_setStage_self hg.1 _, by simp⟩
      · have hold : j ∈ b.placed := by simpa [hji] using hj
        obtain ⟨st, hst, hne⟩ := h.left j hold
        exact ⟨st, (stageOf_setStage_of_ne hji b _).trans hst, hne⟩
    · by_cases hji : j = i
      · subst hji
        exact List.mem_append_right _ (List.mem_singleton_self j)
      · have hold := (stageOf_setStage_of_ne hji b .await).symm.trans hj
        exact List.mem_append_left _ (h.await j hold)
  · cases hs

theorem Sound.cancel (h : b.Sound) (hs : b.cancel i = some b') : b'.Sound := by
  unfold Batcher.cancel at hs
  split at hs
  · rename_i hg
    cases hs
    rcases hg with hg | hg <;> exact h.returned hg (by simp) (by simp)
  · cases hs

theorem Sound.refuse (h : b.Sound) (hs : b.refuse i = some b') : b'.Sound := by
  unfold Batcher.refuse at hs
  split at hs
  · rename_i hg
    cases hs
    exact h.returned hg.1 (by simp) (by simp)
  · cases hs

theorem Sound.wake (h : b.Sound) (hs : b.wake i = some b') : b'.Sound := by
  unfold Batcher.wake at hs
  split at hs
  · rename_i hg
    obtain ⟨r, -, rfl⟩ := Option.map_eq_some_iff.mp hs
    exact h.returned hg (by simp) (by simp)
  · cases hs

end Callers

section Loop

/-- A step of the loop moves entries on, in their order, and leaves the calls alone. -/
theorem Sound.moved (h : b.Sound) (hcalls : b'.calls = b.calls) (hplaced : b'.placed = b.placed)
    (hmoved : b'.closed.map Prod.fst ++ b'.closing ++ b'.pending ++ b'.queue =
      b.closed.map Prod.fst ++ b.closing ++ b.pending ++ b.queue)
    (hbatches : b'.closed ++ b'.answering = b'.batches.flatMap fun x => x.1.map fun i => (i, x.2))
    (hidle : b'.stage ≠ .drain → b'.stage ≠ .flush → b'.pending = [])
    (haborted : ∀ entries, b'.stage = .abort entries → entries = [])
    (hstopped : b'.Stopping → b'.stopped = true) : b'.Sound := by
  have hstage : ∀ i, b'.stageOf i = b.stageOf i := fun i => by rw [stageOf, hcalls, stageOf]
  refine ⟨?_, hplaced ▸ h.nodup, ?_, ?_, hbatches, hidle, haborted, hstopped⟩
  · rw [hplaced, h.placed, hmoved]
  · simpa only [hplaced, hstage] using h.left
  · simpa only [hplaced, hstage] using h.await

/-- As long as the loop goes on nothing is to be said about its end. -/
theorem Sound.moved_on (h : b.Sound) (hcalls : b'.calls = b.calls)
    (hplaced : b'.placed = b.placed)
    (hmoved : b'.closed.map Prod.fst ++ b'.closing ++ b'.pending ++ b'.queue =
      b.closed.map Prod.fst ++ b.closing ++ b.pending ++ b.queue)
    (hbatches : b'.closed ++ b'.answering = b'.batches.flatMap fun x => x.1.map fun i => (i, x.2))
    (hidle : b'.stage ≠ .drain → b'.stage ≠ .flush → b'.pending = [])
    (hgoing : ¬ b'.Stopping) : b'.Sound := by
  refine h.moved hcalls hplaced hmoved hbatches hidle (fun entries he => ?_) fun hst => ?_
  · exact absurd (by simp [Stopping, he]) hgoing
  · exact absurd hst hgoing

theorem Sound.stop (h : b.Sound) (hs : b.stop = some b') : b'.Sound := by
  unfold Batcher.stop at hs
  split at hs
  · rename_i hg
    cases hs
    have hpending : b.pending = [] := h.idle (by simp [hg.1]) (by simp [hg.1])
    have hbatches := h.batches
    refine h.moved rfl rfl ?_ ?_ ?_ ?_ ?_
    · simp [closing, hg.1, hpending]
    · simpa [answering, hg.1] using hbatches
    · simp
    · intro entries he
      cases he
      exact hpending
    · intro _
      exact hg.2
  · cases hs

theorem Sound.take (h : b.Sound) (hs : b.take = some b') : b'.Sound := by
  unfold Batcher.take at hs
  split at hs
  · rename_i i queue hstage hqueue
    cases hs
    have hbatches := h.batches
    refine h.moved_on rfl rfl ?_ ?_ ?_ ?_
    · simp [closing, hstage, hqueue]
    · simpa [answering, hstage] using hbatches
    · simp
    · exact id
  · cases hs

theorem Sound.drain (h : b.Sound) (hs : b.drain = some b') : b'.Sound := by
  unfold Batcher.drain at hs
  split at hs
  · rename_i hstage
    have hbatches := h.batches
    have hflush : Sound { b with stage := .flush } := by
      refine h.moved_on rfl rfl ?_ ?_ ?_ ?_
      · simp [closing, hstage]
      · simpa [answering, hstage] using hbatches
      · simp
      · exact id
    split at hs
    · cases hs
      exact hflush
    · split at hs
      · cases hs
        exact hflush
      · rename_i i queue hqueue
        cases hs
        refine h.moved_on rfl rfl ?_ ?_ ?_ ?_
        · simp [closing, hstage, hqueue]
        · simpa [answering, hstage] using hbatches
        · exact fun hne => absurd hstage hne
        · simp [Stopping, hstage]
  · cases hs

theorem Sound.flush (h : b.Sound) {r : BatchResult} (hs : b.flush r = some b') : b'.Sound := by
  unfold Batcher.flush at hs
  split at hs
  · rename_i hstage
    have hbatches := h.batches
    split at hs
    · rename_i hpending
      cases hs
      refine h.moved_on rfl rfl ?_ ?_ ?_ ?_
      · simp [closing, hstage]
      · simpa [answering, hstage] using hbatches
      · exact fun _ _ => hpending
      · exact id
    · cases hs
      refine h.moved_on rfl rfl ?_ ?_ ?_ ?_
      · simp [closing, hstage]
      · simpa [answering, hstage] using hbatches
      · simp
      · exact id
  · cases hs

theorem Sound.complete (h : b.Sound) (hs : b.complete = some b') : b'.Sound := by
  have hbatches := h.batches
  unfold Batcher.complete at hs
  split at hs
  · rename_i i rest r hstage
    cases hs
    have hpending : b.pending = [] := h.idle (by simp [hstage]) (by simp [hstage])
    refine h.moved_on rfl rfl ?_ ?_ ?_ ?_
    · simp [closing, hstage]
    · simpa [answering, hstage] using hbatches
    · exact fun _ _ => hpending
    · exact id
  · rename_i r hstage
    cases hs
    have hpending : b.pending = [] := h.idle (by simp [hstage]) (by simp [hstage])
    refine h.moved_on rfl rfl ?_ ?_ ?_ ?_
    · simp [closing, hstage]
    · simpa [answering, hstage] using hbatches
    · exact fun _ _ => hpending
    · exact id
  · rename_i i rest hstage
    cases h.aborted _ hstage
  · rename_i hstage
    cases hs
    have hpending : b.pending = [] := h.idle (by simp [hstage]) (by simp [hstage])
    refine h.moved rfl rfl ?_ ?_ ?_ ?_ ?_
    · simp [closing, hstage]
    · simpa [answering, hstage] using hbatches
    · exact fun _ _ => hpending
    · simp
    · intro _
      exact h.stopped (by simp [Stopping, hstage])
  · cases hs

end Loop

theorem Sound.step (h : b.Sound) {a : BatcherAction} (hs : b.step a = some b') : b'.Sound := by
  cases a with
  | call bytes =>
    cases hs
    exact h.call bytes
  | enqueue i => exact h.enqueue hs
  | cancel i => exact h.cancel hs
  | refuse i => exact h.refuse hs
  | wake i => exact h.wake hs
  | close =>
    cases hs
    exact ⟨h.placed, h.nodup, h.left, h.await, h.batches, h.idle, h.aborted, fun _ => rfl⟩
  | stop => exact h.stop hs
  | take => exact h.take hs
  | drain => exact h.drain hs
  | flush r => exact h.flush hs
  | complete => exact h.complete hs

section Exit

/-- What callers do besides queueing leaves the loop and its entries alone. -/
theorem frame_caller {a : BatcherAction} (hs : b.step a = some b')
    (ha : a.isCaller = true) : b'.stage = b.stage ∧ b'.queue = b.queue ∧ b'.closed = b.closed := by
  cases a with
  | call bytes | close =>
    cases hs
    exact ⟨rfl, rfl, rfl⟩
  | cancel i | refuse i =>
    simp only [step, cancel, refuse, Option.ite_none_right_eq_some] at hs
    obtain ⟨-, hs⟩ := hs
    cases hs
    exact ⟨rfl, rfl, rfl⟩
  | wake i =>
    simp only [step, wake, Option.ite_none_right_eq_some] at hs
    obtain ⟨r, -, rfl⟩ := Option.map_eq_some_iff.mp hs.2
    exact ⟨rfl, rfl, rfl⟩
  | enqueue i | stop | take | drain | flush r | complete => cases ha

theorem frame_enqueue (hs : b.step (.enqueue i) = some b') :
    b'.stage = b.stage ∧ b'.closed = b.closed := by
  simp only [step, enqueue, Option.ite_none_right_eq_some] at hs
  obtain ⟨-, hs⟩ := hs
  cases hs
  exact ⟨rfl, rfl⟩

theorem stopping_congr (h : b'.stage = b.stage) : b'.Stopping ↔ b.Stopping := by
  rw [Stopping, h, Stopping]

/-- Only the stop branch leads out of the loop. -/
theorem stopping_step {a : BatcherAction} (hs : b.step a = some b') (h : b'.Stopping) :
    b.Stopping ∨ a = .stop := by
  cases a with
  | stop => exact Or.inr rfl
  | call _ | cancel _ | refuse _ | wake _ | close =>
    exact Or.inl ((stopping_congr (frame_caller hs rfl).1).mp h)
  | enqueue i => exact Or.inl ((stopping_congr (frame_enqueue hs).1).mp h)
  | take =>
    simp only [step, take] at hs
    split at hs
    · cases hs
      cases h
    · cases hs
  | drain =>
    simp only [step, drain, Option.ite_none_right_eq_some] at hs
    obtain ⟨hstage, hs⟩ := hs
    split at hs
    · cases hs
      cases h
    · split at hs
      · cases hs
        cases h
      · cases hs
        exact Or.inl h
  | flush r =>
    simp only [step, flush, Option.ite_none_right_eq_some] at hs
    obtain ⟨hstage, hs⟩ := hs
    split at hs <;> cases hs <;> cases h
  | complete =>
    simp only [step, complete] at hs
    split at hs
    · cases hs
      cases h
    · cases hs
      cases h
    · rename_i hstage
      exact Or.inl (by simp [Stopping, hstage])
    · rename_i hstage
      exact Or.inl (by simp [Stopping, hstage])
    · cases hs

/-- Only a submission puts something on the queue. -/
theorem queue_step {a : BatcherAction} (hs : b.step a = some b') (ha : ∀ i, a ≠ .enqueue i)
    (h : b.queue = []) : b'.queue = [] := by
  cases a with
  | enqueue i => exact absurd rfl (ha i)
  | call _ | cancel _ | refuse _ | wake _ | close => rw [(frame_caller hs rfl).2.1, h]
  | stop =>
    simp only [step, stop, Option.ite_none_right_eq_some] at hs
    obtain ⟨-, hs⟩ := hs
    cases hs
    exact h
  | take =>
    simp only [step, take, h] at hs
    split at hs
    · rename_i hq
      cases hq
    · cases hs
  | drain =>
    simp only [step, drain, h, Option.ite_none_right_eq_some] at hs
    obtain ⟨hstage, hs⟩ := hs
    split at hs <;> cases hs <;> rfl
  | flush r =>
    simp only [step, flush, Option.ite_none_right_eq_some] at hs
    obtain ⟨hstage, hs⟩ := hs
    split at hs <;> cases hs <;> exact h
  | complete =>
    simp only [step, complete] at hs
    split at hs <;> cases hs <;> exact h

theorem emptied_step {a : BatcherAction} (h : b.Stopping → b.queue = []) (ha : b.Orderly a)
    (hs : b.step a = some b') (hstop : b'.Stopping) : b'.queue = [] := by
  have hqueue : b.queue = [] := by
    rcases stopping_step hs hstop with hold | rfl
    · exact h hold
    · exact ha
  refine queue_step hs ?_ hqueue
  rintro i rfl
  rcases stopping_step hs hstop with hold | hstop
  · exact ha hold
  · cases hstop

theorem filter_eq_singleton {cs : List (ℕ × BatchResult)} {r : BatchResult}
    (hn : (cs.map Prod.fst).Nodup) (h : (i, r) ∈ cs) :
    cs.filter (fun c => c.1 = i) = [(i, r)] := by
  induction cs with
  | nil => cases h
  | cons c cs ih =>
    rw [List.map_cons, List.nodup_cons] at hn
    rcases List.mem_cons.mp h with rfl | hmem
    · have hrest : cs.filter (fun c => c.1 = i) = [] := by
        simp only [List.filter_eq_nil_iff, decide_eq_true_eq]
        intro c hc heq
        exact hn.1 (List.mem_map.mpr ⟨c, hc, heq⟩)
      simp [hrest]
    · have hne : c.1 ≠ i := by
        intro heq
        exact hn.1 (List.mem_map.mpr ⟨(i, r), hmem, heq.symm⟩)
      rw [List.filter_cons_of_neg (by simpa using hne), ih hn.2 hmem]

theorem Sound.closed_of_exited (h : b.Sound) (hexit : b.stage = .exited) (hq : b.queue = []) :
    b.closed.map Prod.fst = b.placed ∧
      b.closed = b.batches.flatMap fun x => x.1.map fun i => (i, x.2) := by
  have hpending := h.idle (by simp [hexit]) (by simp [hexit])
  constructor
  · rw [h.placed]
    simp [closing, hexit, hpending, hq]
  · simpa [answering, hexit] using h.batches

end Exit

/-- In every run in which the loop stops with an empty queue and nothing is queued after
that, the loop leaves no entry behind: once it has exited, the `done` channel of every entry
was closed once, with the result of the one batch of the entry, and every call that has not
returned can return. -/
theorem every_entry_is_completed {cfg : BatchingConfig} (hr : Reach step Orderly (new cfg) b)
    (hexit : b.stage = .exited) :
    (∀ i ∈ b.placed, ∃ batch ∈ b.batches, i ∈ batch.1 ∧
        b.closed.filter (fun c => c.1 = i) = [(i, batch.2)]) ∧
      (b.batches.flatMap Prod.fst).Nodup ∧
      (∀ i, b.stageOf i = some .enqueue → (b.step (.refuse i)).isSome) ∧
      ∀ i, b.stageOf i = some .await → (b.step (.wake i)).isSome := by
  have hinv : b.Sound ∧ (b.Stopping → b.queue = []) :=
    hr.invariant (P := fun b => b.Sound ∧ (b.Stopping → b.queue = []))
      ⟨sound_new cfg, fun h => by cases h⟩
      fun _ _ _ h ha hs => ⟨h.1.step hs, emptied_step h.2 ha hs⟩
  obtain ⟨hsound, hempty⟩ := hinv
  have hstopping : b.Stopping := by simp [Stopping, hexit]
  obtain ⟨hplaced, hclosed⟩ := hsound.closed_of_exited hexit (hempty hstopping)
  have hnodup : (b.closed.map Prod.fst).Nodup := hplaced ▸ hsound.nodup
  have hmem : ∀ i ∈ b.placed, ∃ r, (i, r) ∈ b.closed := by
    intro i hi
    rw [← hplaced] at hi
    obtain ⟨⟨j, r⟩, hc, rfl⟩ := List.mem_map.mp hi
    exact ⟨r, hc⟩
  refine ⟨fun i hi => ?_, ?_, fun i hi => ?_, fun i hi => ?_⟩
  · obtain ⟨r, hc⟩ := hmem i hi
    have hfilter := filter_eq_singleton hnodup hc
    rw [hclosed] at hc
    obtain ⟨batch, hb, hc⟩ := List.mem_flatMap.mp hc
    obtain ⟨j, hj, heq⟩ := List.mem_map.mp hc
    cases heq
    exact ⟨batch, hb, hj, hfilter⟩
  · rw [hclosed] at hnodup
    simpa [List.map_flatMap, Function.comp_def] using hnodup
  · simp [step, refuse, hi, hsound.stopped hstopping]
  · obtain ⟨r, hc⟩ := hmem i (hsound.await i hi)
    simp only [step, wake, hi, if_true, resultOf, Option.isSome_map, List.find?_isSome]
    exact ⟨(i, r), hc, by simp⟩

/-- Two entries in one batch, and a third call that comes too late. -/
def lateCall : List BatcherAction :=
  [.call 8, .call 9, .enqueue 1, .enqueue 0, .take, .drain, .drain, .close, .flush (.token [7]),
    .complete, .complete, .complete, .call 8, .stop, .complete]

theorem every_entry_is_completed_lateCall :
    ∃ b, Reach step Orderly (new ⟨0, 0⟩) b ∧ b.stage = .exited ∧ b.placed = [1, 0] ∧
      (∀ i ∈ b.placed, ∃ batch ∈ b.batches, i ∈ batch.1 ∧
        b.closed.filter (fun c => c.1 = i) = [(i, batch.2)]) ∧
      (b.batches.flatMap Prod.fst).Nodup ∧
      (∀ i, b.stageOf i = some .enqueue → (b.step (.refuse i)).isSome) ∧
      ∀ i, b.stageOf i = some .await → (b.step (.wake i)).isSome := by
  have hrun : (execute step Orderly (new ⟨0, 0⟩) lateCall).map
      (fun b => decide (b.stage = .exited ∧ b.placed = [1, 0])) = some true := by decide
  obtain ⟨b, -, hr, hb⟩ := reach_of_execute hrun
  obtain ⟨hexit, hplaced⟩ := of_decide_eq_true hb
  exact ⟨b, hr, hexit, hplaced, every_entry_is_completed hr hexit⟩

/-- A loop that has exited closes nothing any more. -/
theorem exited_step {a : BatcherAction} (h : b.stage = .exited) (hs : b.step a = some b') :
    b'.stage = .exited ∧ b'.closed = b.closed := by
  cases a with
  | call _ | cancel _ | refuse _ | wake _ | close =>
    obtain ⟨hstage, -, hclosed⟩ := frame_caller hs rfl
    exact ⟨hstage.trans h, hclosed⟩
  | enqueue i =>
    obtain ⟨hstage, hclosed⟩ := frame_enqueue hs
    exact ⟨hstage.trans h, hclosed⟩
  | stop | take | drain | flush r | complete =>
    simp [step, stop, take, drain, flush, complete, h] at hs

/-- The batcher is closed while an entry is on the channel and the loop is idle: the entry is
never completed, and its caller waits until its context ends. -/
theorem queued_entry_is_forgotten :
    ∃ b, Reach step (fun _ _ => True) (new ⟨0, 0⟩) b ∧ b.stage = .exited ∧ 0 ∈ b.placed ∧
      b.stageOf 0 = some .await ∧
      ∀ t, Reach step (fun _ _ => True) b t → t.closed = [] ∧ t.step (.wake 0) = none := by
  have hrun : (execute step (fun _ _ => True) (new ⟨0, 0⟩)
      [.call 8, .enqueue 0, .close, .stop, .complete]).map (fun b => decide (b.stage = .exited ∧
        0 ∈ b.placed ∧ b.stageOf 0 = some .await ∧ b.closed = [])) = some true := by decide
  obtain ⟨b, -, hr, hb⟩ := reach_of_execute hrun
  obtain ⟨hexit, hplaced, hawait, hclosed⟩ := of_decide_eq_true hb
  refine ⟨b, hr, hexit, hplaced, hawait, fun t ht => ?_⟩
  have hstays : t.stage = .exited ∧ t.closed = [] :=
    ht.invariant (P := fun t => t.stage = .exited ∧ t.closed = []) ⟨hexit, hclosed⟩
      fun s a u h _ hs => by
        obtain ⟨hstage, hsame⟩ := exited_step h.1 hs
        exact ⟨hstage, hsame.trans h.2⟩
  exact ⟨hstays.2, by simp [step, wake, resultOf, hstays.2]⟩

end Batcher

end Comlink
