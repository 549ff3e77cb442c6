import Comlink.SemOrder

/-!
# Eager executions reach a fixed point

Every pass that executes something leaves fewer messages unexecuted, and the loop has one
pass more than there are messages. So it ends in a state in which every message of class 1
whose predecessors are executed is executed itself.
-/
namespace Comlink.SemOrder

variable {o : SemOrder} {env : Envelope} {ch : SemChoices}

/-- All messages that have been put into a wave. -/
def stored (o : SemOrder) : List Envelope := o.messagesByWave.keys.flatMap o.inWave

/-- The number of messages that are not yet executed. -/
def pending (o : SemOrder) : ℕ := (o.stored.filter fun e => !o.isExecuted e).length

/-- No operation of class 1 is ready to be executed. -/
def Settled (o : SemOrder) : Prop :=
  ∀ w, ∀ e ∈ o.inWave w, o.isClass1 e = true → o.predecessorsExecuted e = true →
    o.isExecuted e = true

theorem mem_keys_of_mem_inWave {w : ℕ} (h : env ∈ o.inWave w) : w ∈ o.messagesByWave.keys := by
  rw [← AList.mem_keys, ← AList.lookup_isSome]
  cases hl : o.messagesByWave.lookup w with
  | none => simp [inWave, hl] at h
  | some envs => rfl

theorem mem_stored {w : ℕ} (h : env ∈ o.inWave w) : env ∈ o.stored :=
  List.mem_flatMap.mpr ⟨w, mem_keys_of_mem_inWave h, h⟩

theorem stored_applyEnv (o : SemOrder) (env : Envelope) : (o.applyEnv env).stored = o.stored := by
  unfold applyEnv
  split <;> rfl

theorem isExecuted_applyEnv_of_isExecuted {e : Envelope} (h : o.isExecuted e = true) :
    (o.applyEnv env).isExecuted e = true := by
  unfold applyEnv
  split
  · exact h
  · unfold isExecuted at h ⊢
    dsimp only
    split at h
    · cases h
    · simp only [decide_eq_true_eq] at h ⊢
      exact List.mem_cons_of_mem _ h

theorem isExecuted_applyEnv_self (h : o.predecessorsExecuted env = true) :
    (o.applyEnv env).isExecuted env = true := by
  cases hs : o.membership.senderSeq env.id with
  | none =>
    rw [predecessorsExecuted, hs] at h
    split at h
    · rename_i heq
      cases heq
    · cases h
  | some seq => simp [applyEnv, hs, isExecuted]

/-- An execution leaves fewer messages unexecuted. -/
theorem pending_applyEnv_lt (hmem : env ∈ o.stored) (hx : o.isExecuted env = false)
    (hp : o.predecessorsExecuted env = true) : (o.applyEnv env).pending < o.pending := by
  have hsub : (o.stored.filter fun e => !(o.applyEnv env).isExecuted e) =
      (o.stored.filter fun e => !o.isExecuted e).filter
        fun e => !(o.applyEnv env).isExecuted e := by
    rw [List.filter_filter]
    refine List.filter_congr fun e _ => ?_
    cases he : o.isExecuted e with
    | false => simp
    | true => simp [isExecuted_applyEnv_of_isExecuted he]
  rw [pending, pending, stored_applyEnv, hsub, List.length_filter_lt_length_iff_exists]
  refine ⟨env, List.mem_filter.mpr ⟨hmem, by simp [hx]⟩, ?_⟩
  simp [isExecuted_applyEnv_self hp]

/-- A pass that makes no progress has found nothing to execute. -/
theorem foldl_eagerStep_idle {envs : List Envelope} {progressed : Bool}
    (h : (envs.foldl eagerStep (o, progressed)).2 = false) :
    (envs.foldl eagerStep (o, progressed)).1 = o ∧ ∀ e ∈ envs, o.isClass1 e = true →
      o.predecessorsExecuted e = true → o.isExecuted e = true := by
  have hflag : ∀ (envs : List Envelope) (o : SemOrder),
      (envs.foldl eagerStep (o, true)).2 = true := by
    intro envs
    induction envs with
    | nil => exact fun _ => rfl
    | cons env envs ih =>
      intro o
      rw [List.foldl_cons, eagerStep]
      split <;> exact ih _
  induction envs with
  | nil => exact ⟨rfl, by simp⟩
  | cons env envs ih =>
    rw [List.foldl_cons, eagerStep] at h ⊢
    split at h
    · rw [hflag] at h
      cases h
    · rename_i hcond
      rw [if_neg hcond]
      obtain ⟨hsame, hrest⟩ := ih h
      refine ⟨hsame, List.forall_mem_cons.mpr ⟨?_, hrest⟩⟩
      intro hc hp
      simpa [hc, hp] using hcond

theorem foldl_eagerStep_pending {envs : List Envelope} (he : ∀ e ∈ envs, e ∈ o.stored)
    (progressed : Bool) : (envs.foldl eagerStep (o, progressed)).1.pending ≤ o.pending ∧
      (progressed = false → (envs.foldl eagerStep (o, progressed)).2 = true →
        (envs.foldl eagerStep (o, progressed)).1.pending < o.pending) := by
  induction envs generalizing o progressed with
  | nil =>
    refine ⟨Nat.le_refl _, fun hf ht => ?_⟩
    simp [hf] at ht
  | cons env envs ih =>
    obtain ⟨henv, hrest⟩ := List.forall_mem_cons.mp he
    rw [List.foldl_cons, eagerStep]
    split
    · rename_i hcond
      simp only [Bool.and_eq_true, Bool.not_eq_true'] at hcond
      have hlt := pending_applyEnv_lt henv hcond.1.2 hcond.2
      have hle := (ih (o := o.applyEnv env) (by rwa [stored_applyEnv]) true).1
      exact ⟨hle.trans hlt.le, fun _ _ => hle.trans_lt hlt⟩
    · exact ih hrest progressed

theorem settled_eagerLoop (fuel : ℕ) (h : o.pending < fuel) :
    (o.eagerLoop ch fuel).Settled := by
  induction fuel generalizing o with
  | zero => omega
  | succ fuel ih =>
    have hmem : ∀ e, e ∈ (ch.waves o.executed.length o.messagesByWave.keys).flatMap o.inWave ↔
        e ∈ o.stored := by
      intro e
      simp only [stored, List.mem_flatMap, (ch.waves_perm _ _).mem_iff]
    rw [eagerLoop]
    split
    · rename_i hprogress
      have hlt := (foldl_eagerStep_pending (fun e he => (hmem e).mp he) false).2 rfl hprogress
      exact ih (by change (o.eagerPass ch).1.pending < _ at hlt; omega)
    · rename_i hidle
      obtain ⟨hsame, hnone⟩ := foldl_eagerStep_idle (Bool.eq_false_iff.mpr hidle)
      change (o.eagerPass ch).1 = o at hsame
      rw [hsame]
      exact fun w e he => hnone e ((hmem e).mpr (mem_stored he))

theorem settled_tryEagerExecutions (o : SemOrder) (ch : SemChoices) :
    (o.tryEagerExecutions ch).Settled :=
  settled_eagerLoop _ (Nat.lt_succ_of_le (List.length_filter_le _ _))

end Comlink.SemOrder
