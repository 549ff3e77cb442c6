import Comlink.SemOrderCausality
import Comlink.SemReplica
import Comlink.Saturation

/-!
# One call of the eager executions

Whatever the order in which it goes through the waves, `tryEagerExecutions` emits the least
set of observed operations of class 1 that contains those whose predecessors are executed
or in the set. This is so as long as the clocks of these operations name no replica beyond
the membership that the layer was built with: `predecessorsExecuted` asks that membership
for the replica of every slot with an entry, and the slots of members that joined later do
not exist there.
-/
namespace Comlink.SemOrder
open Saturation

variable {D : List Envelope} {o o' : SemOrder} {env : Envelope} {ch : SemChoices}

section Panics

/-- The loop of `predecessorsExecuted` up to its first answer; `none` is the panic of
`Replica` on a slot that the membership does not have. -/
def scanEntries (o : SemOrder) (sender : ReplicaID) (slot seq : ℕ) :
    List (ℕ × ℕ) → Option Bool
  | [] => some true
  | entry :: rest =>
    if entry.2 ≠ slot ∧ entry.1 ≠ 0 ∧ o.membership.len ≤ entry.2 then none
    else if o.entryExecuted sender slot seq entry then o.scanEntries sender slot seq rest
    else some false

def checkPredecessors (o : SemOrder) (env : Envelope) : Option Bool :=
  match o.membership.slotOf env.sender, o.membership.senderSeq env.id with
  | some slot, some seq => o.scanEntries env.sender slot seq env.id.vectorClock.zipIdx
  | _, _ => some false

def checkedStep (st : SemOrder × Bool) (env : Envelope) : Option (SemOrder × Bool) :=
  if st.1.isClass1 env && !st.1.isExecuted env then
    (st.1.checkPredecessors env).map fun ready => if ready then (st.1.applyEnv env, true) else st
  else some st

def checkedPass (ch : SemChoices) (o : SemOrder) : Option (SemOrder × Bool) :=
  ((ch.waves o.executed.length o.messagesByWave.keys).flatMap o.inWave).foldlM checkedStep
    (o, false)

def checkedLoop (ch : SemChoices) : ℕ → SemOrder → Option SemOrder
  | 0, o => some o
  | fuel + 1, o => (o.checkedPass ch).bind fun st =>
    if st.2 then checkedLoop ch fuel st.1 else some st.1

/-- `tryEagerExecutions` with its panics. -/
def checkedExecutions (ch : SemChoices) (o : SemOrder) : Option SemOrder :=
  o.checkedLoop ch (o.observedCount + 1)

/-- The clock names no replica beyond the slots. -/
def Covers (m : Membership) (env : Envelope) : Prop :=
  ∀ i < env.id.vectorClock.length, m.len ≤ i → env.id.vectorClock.atSlot i = 0

/-- If the layer is ever to ask for the predecessors, it can. -/
def Addressable (o : SemOrder) (env : Envelope) : Prop :=
  o.isClass1 env = true → (o.membership.slotOf env.sender).isSome = true → Covers o.membership env

instance (o : SemOrder) (env : Envelope) : Decidable (o.Addressable env) :=
  inferInstanceAs (Decidable (_ → _ → ∀ i < _, _ → _ = 0))

theorem scanEntries_eq {sender : ReplicaID} {slot seq : ℕ} {entries : List (ℕ × ℕ)}
    (h : ∀ entry ∈ entries, o.membership.len ≤ entry.2 → entry.1 = 0) :
    o.scanEntries sender slot seq entries =
      some (entries.all (o.entryExecuted sender slot seq)) := by
  induction entries with
  | nil => rfl
  | cons entry rest ih =>
    obtain ⟨hentry, hrest⟩ := List.forall_mem_cons.mp h
    rw [scanEntries, if_neg fun hbad => hbad.2.1 (hentry hbad.2.2), ih hrest, List.all_cons]
    cases o.entryExecuted sender slot seq entry <;> rfl

theorem checkPredecessors_eq (h : (o.membership.slotOf env.sender).isSome = true →
    Covers o.membership env) : o.checkPredecessors env = some (o.predecessorsExecuted env) := by
  rw [checkPredecessors, predecessorsExecuted]
  cases hslot : o.membership.slotOf env.sender with
  | none => rfl
  | some slot =>
    cases o.membership.senderSeq env.id with
    | none => rfl
    | some seq =>
      refine scanEntries_eq ?_
      rintro ⟨x, i⟩ hmem hlen
      obtain ⟨hi, hget⟩ := List.getElem?_eq_some_iff.mp (List.mem_zipIdx_iff_getElem?.mp hmem)
      rw [← hget, ← VectorClock.atSlot_eq_getElem hi]
      exact h (by rw [hslot]; rfl) i hi hlen

theorem Addressable.congr (h : o.Addressable env) (hc : o'.classifier = o.classifier)
    (hm : o'.membership = o.membership) : o'.Addressable env := by
  unfold Addressable isClass1 at h ⊢
  rw [hc, hm]
  exact h

theorem applyEnv_kept (o : SemOrder) (env : Envelope) :
    (o.applyEnv env).classifier = o.classifier ∧ (o.applyEnv env).membership = o.membership := by
  unfold applyEnv
  split <;> exact ⟨rfl, rfl⟩

theorem foldlM_checkedStep {envs : List Envelope} (h : ∀ e ∈ envs, o.Addressable e)
    (progressed : Bool) :
    envs.foldlM checkedStep (o, progressed) = some (envs.foldl eagerStep (o, progressed)) := by
  induction envs generalizing o progressed with
  | nil => rfl
  | cons env envs ih =>
    obtain ⟨henv, hrest⟩ := List.forall_mem_cons.mp h
    have hstep : checkedStep (o, progressed) env = some (eagerStep (o, progressed) env) := by
      rw [checkedStep, eagerStep]
      cases hc : o.isClass1 env with
      | false => simp
      | true =>
        rw [checkPredecessors_eq (henv hc)]
        cases o.isExecuted env <;> cases o.predecessorsExecuted env <;> rfl
    rw [List.foldlM_cons, hstep, List.foldl_cons]
    change envs.foldlM checkedStep (eagerStep (o, progressed) env) = _
    rw [eagerStep]
    split
    · exact ih (fun e he => (hrest e he).congr (applyEnv_kept o env).1 (applyEnv_kept o env).2) true
    · exact ih hrest progressed

theorem checkedLoop_eq (h : ∀ w, ∀ e ∈ o.inWave w, o.Addressable e) (fuel : ℕ) :
    o.checkedLoop ch fuel = some (o.eagerLoop ch fuel) := by
  induction fuel generalizing o with
  | zero => rfl
  | succ fuel ih =>
    have hpass : o.checkedPass ch = some (o.eagerPass ch) := by
      refine foldlM_checkedStep (fun e he => ?_) false
      obtain ⟨w, _, hw⟩ := List.mem_flatMap.mp he
      exact h w e hw
    have hnext : ∀ w, ∀ e ∈ (o.eagerPass ch).1.inWave w, (o.eagerPass ch).1.Addressable e := by
      refine foldl_eagerStep_induction (P := fun o => ∀ w, ∀ e ∈ o.inWave w, o.Addressable e)
        ?_ ?_ h false
      · intro o env _ ho _ _ _ _ w e he
        rw [inWave_applyEnv] at he
        exact (ho w e he).congr (applyEnv_kept o env).1 (applyEnv_kept o env).2
      · intro e he
        obtain ⟨w, _, hw⟩ := List.mem_flatMap.mp he
        exact ⟨w, hw⟩
    rw [checkedLoop, eagerLoop, hpass, Option.bind_some]
    split
    · exact ih hnext
    · rfl

end Panics

section Termination

theorem mem_flatMap_waves (ch : SemChoices) (o : SemOrder) (env : Envelope) :
    env ∈ (ch.waves o.executed.length o.messagesByWave.keys).flatMap o.inWave ↔
      env ∈ o.stored := by
  simp only [stored, List.mem_flatMap, (ch.waves_perm _ _).mem_iff]

/-- More passes than there are messages to execute change nothing. -/
theorem eagerLoop_eq {fuel fuel' : ℕ} (h : o.pending < fuel) (h' : o.pending < fuel') :
    o.eagerLoop ch fuel = o.eagerLoop ch fuel' := by
  induction fuel generalizing o fuel' with
  | zero => omega
  | succ fuel ih =>
    obtain ⟨fuel', rfl⟩ : ∃ n, fuel' = n + 1 := ⟨fuel' - 1, by omega⟩
    rw [eagerLoop, eagerLoop]
    split
    · rename_i hprogress
      have hlt := (foldl_eagerStep_pending (fun e he => (mem_flatMap_waves ch o e).mp he) false).2
        rfl hprogress
      change (o.eagerPass ch).1.pending < _ at hlt
      exact ih (by omega) (by omega)
    · rfl

end Termination

section Closure

/-- An observed operation of class 1 that is not yet executed, but whose predecessors are
or belong to `S`. -/
structure Ready (o : SemOrder) (S : Envelope → Prop) (env : Envelope) : Prop where
  observed : ∃ w, env ∈ o.inWave w
  class1 : o.isClass1 env = true
  fresh : o.isExecuted env = false
  predecessors : ∀ k ∈ Graph.derivedParents o.membership env,
    k ∈ o.executed ∨ ∃ f, S f ∧ o.membership.keyOf f = some k

theorem monotone_ready (o : SemOrder) : Saturation.Monotone o.Ready := by
  intro S T hST env h
  refine ⟨h.observed, h.class1, h.fresh, fun k hk => ?_⟩
  rcases h.predecessors k hk with hx | ⟨f, hf, hfk⟩
  · exact Or.inl hx
  · exact Or.inr ⟨f, hST f hf, hfk⟩

/-- A later state of the same call, which has emitted `out` since its beginning. -/
structure Emits (D : List Envelope) (o : SemOrder) (out : List Envelope) (o' : SemOrder) :
    Prop where
  sees : Sees D o'
  classifier : o'.classifier = o.classifier
  membership : o'.membership = o.membership
  inWave : ∀ w, o'.inWave w = o.inWave w
  emitted : o'.emitted = o.emitted ++ out
  chain : Chain o.Ready out
  nodup : out.Nodup

theorem Emits.isClass1 {out : List Envelope} (h : Emits D o out o') (e : Envelope) :
    o'.isClass1 e = o.isClass1 e := by
  rw [SemOrder.isClass1, SemOrder.isClass1, h.classifier]

theorem Emits.executed {out : List Envelope} (h : Emits D o out o') (ho : Sees D o) (k : Key) :
    k ∈ o'.executed ↔ k ∈ o.executed ∨ ∃ f ∈ out, o.membership.keyOf f = some k := by
  rw [h.sees.executed, ho.executed, h.emitted, h.membership]
  simp only [List.mem_append, or_and_right, exists_or]

theorem Emits.apply {out : List Envelope} {w : ℕ} (h : Emits D o out o') (ho : Sees D o)
    (hw : env ∈ o'.inWave w) (hc : o'.isClass1 env = true) (hx : o'.isExecuted env = false)
    (hp : o'.predecessorsExecuted env = true) : Emits D o (out ++ [env]) (o'.applyEnv env) := by
  have henv : env ∈ D := ((h.sees.stored w env).mp hw).1
  have hnot : env ∉ o'.emitted := by
    rw [← h.sees.isExecuted_iff henv, hx]
    exact Bool.false_ne_true
  rw [h.emitted, List.mem_append, not_or] at hnot
  have hready : o.Ready (· ∈ out) env := by
    refine ⟨⟨w, by rwa [← h.inWave]⟩, by rwa [← h.isClass1], ?_, fun k hk => ?_⟩
    · rw [← Bool.not_eq_true, ho.isExecuted_iff henv]
      exact hnot.1
    · rw [← h.membership] at hk
      exact (h.executed ho k).mp (executed_of_predecessorsExecuted hp hk)
  have hkept := applyEnv_kept o' env
  refine ⟨h.sees.apply henv, hkept.1.trans h.classifier, hkept.2.trans h.membership, ?_, ?_, ?_, ?_⟩
  · intro w'
    rw [inWave_applyEnv, h.inWave]
  · obtain ⟨k, hk⟩ := h.sees.keyed env henv
    rw [applyEnv_of_key hk, h.emitted, List.append_assoc]
  · exact ListScans.forall_split_concat.mpr ⟨h.chain, hready⟩
  · exact List.nodup_append.mpr ⟨h.nodup, List.nodup_singleton _, by
      rintro a ha b hb rfl
      rw [List.mem_singleton.mp hb] at ha
      exact hnot.2 ha⟩

theorem Sees.emits_eagerLoop (h : Sees D o) (ch : SemChoices) (fuel : ℕ) :
    ∃ out, Emits D o out (o.eagerLoop ch fuel) := by
  refine eagerLoop_induction (P := fun o' => ∃ out, Emits D o out o') ?_ fuel
    ⟨[], h, rfl, rfl, fun _ => rfl, by simp, by simp [Chain], List.nodup_nil⟩
  rintro o' env w ⟨out, hout⟩ hw hc hx hp
  exact ⟨out ++ [env], hout.apply h hw hc hx hp⟩

/-- What a call emits that leaves nothing to execute is closed. -/
theorem Emits.closed {out : List Envelope} (h : Emits D o out o') (ho : Sees D o)
    (hs : o'.Settled) (ha : ∀ w, ∀ e ∈ o.inWave w, o.Addressable e) :
    ∀ e, o.Ready (· ∈ out) e → e ∈ out := by
  intro e he
  obtain ⟨w, hw⟩ := he.observed
  have heD : e ∈ D := ((ho.stored w e).mp hw).1
  obtain ⟨k, hk⟩ := ho.keyed e heD
  have hp : o'.predecessorsExecuted e = true := by
    obtain ⟨slot, hslot, hlt, -⟩ := Membership.keyOf_eq_some_iff.mp hk
    have hslot' : o'.membership.slotOf e.sender = some slot := by rwa [h.membership]
    refine predecessorsExecuted_of_parents hslot' hlt ?_ ?_
    · intro i hi
      rw [h.membership] at hi
      by_cases hlen : i < e.id.vectorClock.length
      · exact ha w e hw he.class1 (by rw [hslot]; rfl) i hlen hi
      · exact VectorClock.atSlot_of_length_le (Nat.le_of_not_lt hlen)
    · intro k' hk'
      rw [h.membership] at hk'
      exact (h.executed ho k').mpr (he.predecessors k' hk')
  have hx := hs w e (by rwa [h.inWave]) (by rw [h.isClass1]; exact he.class1) hp
  rw [h.sees.isExecuted_iff heD, h.emitted, List.mem_append] at hx
  rcases hx with hx | hx
  · have hfresh := he.fresh
    rw [(ho.isExecuted_iff heD).mpr hx] at hfresh
    cases hfresh
  · exact hx

/-- A call that does not panic, ends, and emits the least set that is closed under `Ready`,
each operation once and after its predecessors. -/
structure Saturates (o : SemOrder) (ch : SemChoices) : Prop where
  safe : o.checkedExecutions ch = some (o.tryEagerExecutions ch)
  ends : ∀ fuel, o.observedCount < fuel → o.eagerLoop ch fuel = o.tryEagerExecutions ch
  emits : ∃ out, (o.tryEagerExecutions ch).emitted = o.emitted ++ out ∧ out.Nodup ∧
    Chain o.Ready out ∧ ∀ e, e ∈ out ↔ Derived o.Ready e

theorem Sees.saturates (h : Sees D o) (ha : ∀ w, ∀ e ∈ o.inWave w, o.Addressable e)
    (ch : SemChoices) : o.Saturates ch := by
  have hpending : o.pending ≤ o.observedCount := List.length_filter_le _ _
  refine ⟨checkedLoop_eq ha _, fun fuel hf => eagerLoop_eq (by omega) (by omega), ?_⟩
  obtain ⟨out, hout⟩ := h.emits_eagerLoop ch (o.observedCount + 1)
  exact ⟨out, hout.emitted, hout.nodup, hout.chain,
    hout.chain.mem_iff (monotone_ready o) (hout.closed h (settled_tryEagerExecutions o ch) ha)⟩

end Closure

section Once

/-- Nothing has been emitted twice. -/
structure Once (D : List Envelope) (o : SemOrder) : Prop extends Sees D o where
  once : o.emitted.Nodup

theorem Once.tryEagerExecutions (h : Once D o) : Once D (o.tryEagerExecutions ch) := by
  refine eagerLoop_induction (P := Once D) ?_ _ h
  intro o env w ho hw _ hx _
  have henv : env ∈ D := ((ho.stored w env).mp hw).1
  obtain ⟨k, hk⟩ := ho.keyed env henv
  refine ⟨ho.toSees.apply henv, ?_⟩
  have hnot : env ∉ o.emitted := by
    rw [← ho.isExecuted_iff henv, hx]
    exact Bool.false_ne_true
  rw [applyEnv_of_key hk]
  refine List.nodup_append.mpr ⟨ho.once, List.nodup_singleton _, ?_⟩
  rintro a ha b hb rfl
  rw [List.mem_singleton.mp hb] at ha
  exact hnot ha

theorem Once.drainWave (h : Once D o) : Once D (o.drainWave ch) := by
  refine ⟨h.toSees.moves (moves_drainWave o), ?_⟩
  obtain ⟨executed, heq⟩ := h.toSees.drainWave ch
  have hsort := (ch.sort_isSortOf (o.inWave o.currentWave)).1
  rw [heq]
  refine List.nodup_append.mpr ⟨h.once, (hsort.nodup_iff.mpr (h.nodup _)).filter _, ?_⟩
  rintro a ha b hb rfl
  exact (h.mem_fresh.mp hb).2.2.2 ha

theorem Once.advanceLoop (h : Once D o) (fuel : ℕ) : Once D (o.advanceLoop ch fuel) := by
  induction fuel generalizing o with
  | zero => exact h
  | succ fuel ih =>
    rw [SemOrder.advanceLoop]
    split
    · have hround : Once D ((o.drainWave ch).tryEagerExecutions ch) :=
        h.drainWave.tryEagerExecutions
      dsimp only
      split
      · exact hround
      · rename_i next hnext
        exact ih ⟨hround.toSees.move (.advance next), hround.once⟩
    · exact h

end Once

end Comlink.SemOrder

namespace Comlink.SemReplica
open GuardedRuns Conversation SemOrder
open SemGroup (byPayload message)

variable {s t : SemReplica} {env : Envelope}

/-- What the pump reads next names no replica that the layer does not know, if it is an
operation of class 1. -/
def ReadAddressable (s : SemReplica) : SemReplicaAction → Prop
  | .serve _ => True
  | .pump _ => ∀ env ∈ s.next, s.order.Addressable env

instance (s : SemReplica) (a : SemReplicaAction) : Decidable (ReadAddressable s a) :=
  match a with
  | .serve _ => isTrue trivial
  | .pump _ => inferInstanceAs (Decidable (∀ env ∈ _, _))

structure Eager (s : SemReplica) : Prop extends Layered s where
  once : s.order.emitted.Nodup
  addressable : ∀ e ∈ s.noted, s.order.Addressable e

/-- In every state of the work on the next delivery the stored messages are addressable. -/
theorem Eager.addressable_moves (h : Eager s) (ha : s.order.Addressable env) {o : SemOrder}
    (hm : Moves { s.order.observe env with received := s.order.received + 1 } o) :
    ∀ e ∈ s.noted ++ [env].filter fun e => (s.order.membership.keyOf e).isSome,
      o.Addressable e := by
  obtain ⟨hc, hmem, -⟩ := hm.kept
  have hkept := kept_observe s.order env
  have hold : ∀ e, s.order.Addressable e → o.Addressable e :=
    fun e he => he.congr (hc.trans hkept.1) (hmem.trans hkept.2)
  refine List.forall_mem_append.mpr ⟨fun e he => hold e (h.addressable e he), fun e he => ?_⟩
  rw [List.mem_singleton.mp (List.mem_filter.mp he).1]
  exact hold env ha

theorem Eager.step (h : Eager s) {a : SemReplicaAction} (hread : ReadAddressable s a)
    (hs : step s a = some t) : Eager t := by
  have hlayered := h.toLayered.step hs
  cases a with
  | serve a =>
    obtain ⟨c, hc, rfl⟩ := Option.map_eq_some_iff.mp hs
    exact ⟨hlayered, h.once, by rw [h.toLayered.noted_serve hc]; exact h.addressable⟩
  | pump ch =>
    obtain ⟨o, ho, rfl⟩ := Option.map_eq_some_iff.mp hs
    obtain ⟨env, henv, hmoves⟩ := pump_moves ho
    have hn : s.next = some env := henv
    refine ⟨hlayered, ?_, ?_⟩
    · have hstart : Once _ { s.order.observe env with received := s.order.received + 1 } :=
        ⟨(h.observed hn).received _, by rw [emitted_observe]; exact h.once⟩
      rw [SemOrder.pump, henv] at ho
      obtain rfl := Option.some.inj ho
      exact (hstart.tryEagerExecutions.advanceLoop _).once
    · rw [noted_pump hn ho]
      exact h.addressable_moves (hread env hn) hmoves

theorem Eager.saturates (h : Eager s) (ch : SemChoices) : s.order.Saturates ch :=
  h.sees.saturates (fun w e he => h.addressable e ((h.sees.stored w e).mp he).1) ch

/-- In a run in which every operation of class 1 that the pump reads is addressable, no key
is emitted twice, and every call of `tryEagerExecutions`, between two deliveries or in any
state of the work on the next one, saturates for every order of the waves. -/
theorem eager_executions_saturate {convID : ConversationID} {self : ReplicaID}
    {members mask : List ReplicaID} {log : MessageLog} {c₀ c : Conversation}
    (hnew : Conversation.new convID self members mask log = some c₀)
    (hc : Reach Conversation.serve (fun _ _ => True) c₀ c) (classifier : List UInt8 → ℤ)
    (hr : Reach step ReadAddressable (build classifier c) s) :
    (s.order.emitted.map s.order.membership.keyOf).Nodup ∧ (∀ ch, s.order.Saturates ch) ∧
      ∀ env, s.next = some env → s.order.Addressable env → ∀ o,
        Moves { s.order.observe env with received := s.order.received + 1 } o →
          ∀ ch, o.Saturates ch := by
  have h : Eager s := by
    refine hr.invariant (P := Eager) ?_ fun _ _ _ hs hread hstep => hs.step hread hstep
    obtain ⟨hseat, hchannel⟩ := channel_of_reach hnew hc
    exact ⟨layered_build hseat hchannel classifier, List.nodup_nil, nofun⟩
  refine ⟨?_, h.saturates, ?_⟩
  · refine h.once.map_on fun a ha b hb hab => ?_
    exact h.sees.unique a (h.sees.emitted a ha) b (h.sees.emitted b hb) hab
  · intro env hn ha o hm ch
    have hsees := ((h.observed hn).received _).moves hm
    refine hsees.saturates (fun w e he => ?_) ch
    exact h.addressable_moves ha hm e ((hsees.stored w e).mp he).1

/-- A strict operation of `[2]` and what commutes with it, before `[3]` joins and sends. -/
def commutingAnswer : List SemReplicaAction :=
  [arrives (message [2] [0, 1] [7]), .serve (.request (.send .standard [])),
    .serve (.request (.addMember [3])), arrives (message [3] [1, 1, 1] [])] ++ reads 2 ++
  [arrives (message [2] [1, 2] [])] ++ reads 2

/-- The answer waits for the strict operation, which waits for its wave to close. -/
theorem eager_executions_saturate_commutingAnswer : ∃ c₀ s,
    Conversation.new [0] [1] [[1], [2]] [] .empty = some c₀ ∧
      Reach step ReadAddressable (build byPayload c₀) s ∧ s.order.emitted = [] ∧
      s.noted = [message [2] [0, 1] [7], message [1] [1, 1] [], message [2] [1, 2] []] ∧
      ∀ ch, s.order.Saturates ch := by
  have hnew : Conversation.new [0] [1] [[1], [2]] [] .empty =
    some (init [0] [1] 0 [[1], [2]] [] .empty) := rfl
  have hrun : (execute step ReadAddressable (build byPayload (init [0] [1] 0 [[1], [2]] [] .empty))
      commutingAnswer).map (fun s => decide (s.order.emitted = [] ∧ s.noted =
        [message [2] [0, 1] [7], message [1] [1, 1] [], message [2] [1, 2] []])) =
          some true := by decide +kernel
  obtain ⟨s, -, hs, hc⟩ := reach_of_execute hrun
  obtain ⟨hemitted, hnoted⟩ := of_decide_eq_true hc
  exact ⟨_, s, hnew, hs, hemitted, hnoted,
    (eager_executions_saturate hnew .refl byPayload hs).2.1⟩

/-- `[3]` joins once the layer is built, and `[2]` answers it. -/
def answeredJoiner : List SemReplicaAction :=
  [.serve (.request (.addMember [3])), arrives (message [3] [0, 0, 1] [])] ++ reads 1 ++
  [arrives (message [2] [0, 1, 1] [])]

/-- The pump asks the membership of its construction for the third replica. -/
theorem eager_executions_panic : ∃ c₀ s,
    Conversation.new [0] [1] [[1], [2]] [] .empty = some c₀ ∧
      Reach step (fun _ _ => True) (build byPayload c₀) s ∧
      s.next = some (message [2] [0, 1, 1] []) ∧
      (s.order.observe (message [2] [0, 1, 1] [])).checkedExecutions .standard = none ∧
      ¬ (s.order.observe (message [2] [0, 1, 1] [])).Saturates .standard := by
  have hrun : (execute step (fun _ _ => True)
      (build byPayload (init [0] [1] 0 [[1], [2]] [] .empty)) answeredJoiner).map (fun s =>
        decide (s.next = some (message [2] [0, 1, 1] []) ∧
          ((s.order.observe (message [2] [0, 1, 1] [])).checkedExecutions .standard).isNone =
            true)) = some true := by decide +kernel
  obtain ⟨s, -, hs, hc⟩ := reach_of_execute hrun
  obtain ⟨hnext, hnone⟩ := of_decide_eq_true hc
  have hpanic := Option.isNone_iff_eq_none.mp hnone
  refine ⟨_, s, rfl, hs, hnext, hpanic, fun h => ?_⟩
  have hsafe := h.safe
  rw [hpanic] at hsafe
  cases hsafe

end Comlink.SemReplica
