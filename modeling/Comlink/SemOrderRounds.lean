import Comlink.AssociationLists
import Comlink.SemOrder

/-!
# What the semantic order layer has passed

The layer against the list `D` of the messages that it has received. `Sees` says that
its tables hold exactly these, and `Ordered` what its rounds achieve: the strict
operations, those of another class than 1, are emitted wave by wave and sorted by sender
within a wave, and nothing received is left behind. The second survives a delivery that
is `Timely`: a strict operation arrives before the layer has passed its wave, and no
other of the same sender is in it.
-/
namespace Comlink.SemOrder
open SortedPermutations AssociationLists

variable {D : List Envelope} {o o' : SemOrder} {env : Envelope} {ch : SemChoices}

/-- The emitted operations of another class than 1. -/
def strictEmitted (o : SemOrder) : List Envelope := o.emitted.filter fun e => !o.isClass1 e

/-- A strict operation arrives while its wave has not been passed, and is the first of its
sender there. -/
def Timely (o : SemOrder) (env : Envelope) : Prop :=
  o.isClass1 env = false → o.currentWave ≤ env.wave ∧
    ∀ f ∈ o.inWave env.wave, o.isClass1 f = false → f.sender ≠ env.sender

instance (o : SemOrder) (env : Envelope) : Decidable (o.Timely env) :=
  inferInstanceAs (Decidable (_ → _))

/-- The order in which strict operations are to be emitted. -/
def Precedes (a b : Envelope) : Prop := a.wave < b.wave ∨ a.wave = b.wave ∧ bySender a b

theorem Precedes.asymm {a b : Envelope} (h : Precedes a b) : ¬ Precedes b a := by
  rcases h with h | ⟨hw, hs⟩
  · rintro (h' | ⟨hw', _⟩) <;> omega
  · rintro (h' | ⟨_, hs'⟩)
    · omega
    · exact List.lt_asymm hs hs'

theorem isExecuted_iff : o.isExecuted env = true ↔
    ∃ k, o.membership.keyOf env = some k ∧ k ∈ o.executed := by
  unfold isExecuted Membership.keyOf
  cases o.membership.senderSeq env.id <;> simp

theorem applyEnv_of_key {k : Key} (hk : o.membership.keyOf env = some k) :
    o.applyEnv env = { o with executed := k :: o.executed, emitted := o.emitted ++ [env] } := by
  obtain ⟨seq, hs, rfl⟩ := Option.map_eq_some_iff.mp hk
  rw [applyEnv, hs]

/-- `observe` on a message whose key is not yet in its wave. -/
theorem observe_of_unseen {k : Key} (hk : o.membership.keyOf env = some k)
    (hnew : k ∉ (o.seenInWave.lookup env.wave).getD []) : ∃ latest,
      (latest = o.latestVector ∨ latest = o.latestVector.insert env.sender env.id.vectorClock) ∧
      o.observe env = { o with
        seenInWave := o.seenInWave.insert env.wave (k :: (o.seenInWave.lookup env.wave).getD [])
        messagesByWave := o.messagesByWave.insert env.wave (o.inWave env.wave ++ [env])
        latestVector := latest } := by
  obtain ⟨seq, hs, rfl⟩ := Option.map_eq_some_iff.mp hk
  rw [observe, hs]
  dsimp only
  rw [if_neg hnew]
  exact ⟨_, (ite_eq_or_eq ..).symm, rfl⟩

section Sees

/-- The tables of a layer that has received the messages of `D`. -/
structure Sees (D : List Envelope) (o : SemOrder) : Prop where
  keyed : ∀ e ∈ D, ∃ k, o.membership.keyOf e = some k
  unique : ∀ a ∈ D, ∀ b ∈ D, o.membership.keyOf a = o.membership.keyOf b → a = b
  stored : ∀ w e, e ∈ o.inWave w ↔ e ∈ D ∧ e.wave = w
  nodup : ∀ w, (o.inWave w).Nodup
  seen : ∀ w, ∀ k ∈ (o.seenInWave.lookup w).getD [], ∃ e ∈ D, o.membership.keyOf e = some k
  latest : ∀ r v, o.latestVector.lookup r = some v →
    ∃ e ∈ D, e.sender = r ∧ e.id.vectorClock = v
  emitted : ∀ e ∈ o.emitted, e ∈ D
  executed : ∀ k, k ∈ o.executed ↔ ∃ e ∈ o.emitted, o.membership.keyOf e = some k

theorem sees_new (classifier : List UInt8 → ℤ) (m : Membership) : Sees [] (new classifier m) := by
  refine ⟨by simp, by simp, by simp [inWave, new], by simp [inWave, new], ?_, ?_, by simp [new],
    by simp [new]⟩
  · intro w k hk
    cases hk
  · intro r v hv
    cases hv

theorem Sees.isExecuted_iff (h : Sees D o) {e : Envelope} (he : e ∈ D) :
    o.isExecuted e = true ↔ e ∈ o.emitted := by
  rw [SemOrder.isExecuted_iff]
  constructor
  · rintro ⟨k, hk, hmem⟩
    obtain ⟨a, ha, hak⟩ := (h.executed k).mp hmem
    rwa [h.unique e he a (h.emitted a ha) (hk.trans hak.symm)]
  · intro hmem
    obtain ⟨k, hk⟩ := h.keyed e he
    exact ⟨k, hk, (h.executed k).mpr ⟨e, hmem, hk⟩⟩

theorem Sees.received (h : Sees D o) (n : ℕ) : Sees D { o with received := n } :=
  ⟨h.keyed, h.unique, h.stored, h.nodup, h.seen, h.latest, h.emitted, h.executed⟩

theorem Sees.apply (h : Sees D o) {e : Envelope} (he : e ∈ D) : Sees D (o.applyEnv e) := by
  obtain ⟨k, hk⟩ := h.keyed e he
  rw [applyEnv_of_key hk]
  refine ⟨h.keyed, h.unique, h.stored, h.nodup, h.seen, h.latest, ?_, ?_⟩
  · intro a ha
    rcases List.mem_append.mp ha with ha | ha
    · exact h.emitted a ha
    · rwa [List.mem_singleton.mp ha]
  · intro k'
    simp only [List.mem_cons, List.mem_append, List.not_mem_nil, or_false, or_and_right, exists_or,
      exists_eq_left, h.executed k', hk, Option.some.injEq]
    rw [or_comm, eq_comm]

theorem Sees.sort (h : Sees D o) {w : ℕ} {envs : List Envelope} (hp : envs.Perm (o.inWave w)) :
    Sees D { o with messagesByWave := o.messagesByWave.insert w envs } := by
  refine ⟨h.keyed, h.unique, ?_, ?_, h.seen, h.latest, h.emitted, h.executed⟩
  · intro w' e
    rw [inWave_insert rfl, ← h.stored]
    split
    · rename_i hw
      rw [hw, hp.mem_iff]
    · rfl
  · intro w'
    rw [inWave_insert rfl]
    split
    · exact hp.nodup_iff.mpr (h.nodup w)
    · exact h.nodup w'

theorem Sees.move (h : Sees D o) (hm : Move o o') : Sees D o' := by
  cases hm with
  | apply hw => exact h.apply ((h.stored _ _).mp hw).1
  | sort hp => exact h.sort hp
  | advance w =>
    exact ⟨h.keyed, h.unique, h.stored, h.nodup, h.seen, h.latest, h.emitted, h.executed⟩

theorem Sees.moves (h : Sees D o) (hm : Moves o o') : Sees D o' := by
  induction hm with
  | refl => exact h
  | tail _ hm ih => exact ih.move hm

theorem Sees.unseen (h : Sees D o) {k : Key} (hnew : ∀ e ∈ D, o.membership.keyOf e ≠ some k)
    (w : ℕ) : k ∉ (o.seenInWave.lookup w).getD [] := by
  intro hmem
  obtain ⟨e, he, hek⟩ := h.seen w k hmem
  exact hnew e he hek

/-- A message under a new key. -/
theorem Sees.observe (h : Sees D o) {k : Key} (hk : o.membership.keyOf env = some k)
    (hnew : ∀ e ∈ D, o.membership.keyOf e ≠ some k) : Sees (D ++ [env]) (o.observe env) := by
  have hout : env ∉ D := fun hmem => hnew env hmem hk
  have hgrow : ∀ {P : Envelope → Prop}, (∃ e ∈ D, P e) → ∃ e ∈ D ++ [env], P e :=
    fun ⟨e, he, hP⟩ => ⟨e, List.mem_append_left _ he, hP⟩
  obtain ⟨latest, hlatest, heq⟩ := observe_of_unseen hk (h.unseen hnew _)
  rw [heq]
  refine ⟨?_, ?_, ?_, ?_, ?_, ?_, fun e he => List.mem_append_left _ (h.emitted e he), h.executed⟩
  · exact List.forall_mem_append.mpr ⟨h.keyed, by simpa using ⟨k, hk⟩⟩
  · intro a ha b hb hab
    simp only [List.mem_append, List.mem_singleton] at ha hb
    rcases ha with ha | rfl <;> rcases hb with hb | rfl
    · exact h.unique a ha b hb hab
    · exact absurd (hab.trans hk) (hnew a ha)
    · exact absurd (hab.symm.trans hk) (hnew b hb)
    · rfl
  · intro w e
    rw [inWave_insert rfl]
    split <;> grind [h.stored]
  · intro w
    rw [inWave_insert rfl]
    split
    · refine List.nodup_append.mpr ⟨h.nodup _, List.nodup_singleton _, ?_⟩
      rintro a ha b hb rfl
      rw [List.mem_singleton.mp hb] at ha
      exact hout ((h.stored _ _).mp ha).1
    · exact h.nodup w
  · intro w k' hk'
    by_cases hw : w = env.wave
    · subst hw
      rw [AList.lookup_insert] at hk'
      rcases List.mem_cons.mp hk' with rfl | hk'
      · exact ⟨env, by simp, hk⟩
      · exact hgrow (h.seen _ k' hk')
    · rw [AList.lookup_insert_ne hw] at hk'
      exact hgrow (h.seen _ k' hk')
  · intro r v hv
    rcases hlatest with rfl | rfl
    · exact hgrow (h.latest r v hv)
    · rcases lookup_insert_cases hv with ⟨rfl, rfl⟩ | ⟨-, hv⟩
      · exact ⟨env, by simp, rfl, rfl⟩
      · exact hgrow (h.latest r v hv)

/-- A pass through messages that are all different emits the strict ones not yet emitted. -/
theorem Sees.foldl_strictStep (h : Sees D o) {envs : List Envelope} (he : ∀ e ∈ envs, e ∈ D)
    (hn : envs.Nodup) : ∃ executed, envs.foldl strictStep o = { o with
      executed := executed
      emitted := o.emitted ++ envs.filter fun e => !o.isClass1 e && decide (e ∉ o.emitted) } := by
  induction envs generalizing o with
  | nil => exact ⟨o.executed, by simp⟩
  | cons env envs ih =>
    obtain ⟨henv, hrest⟩ := List.forall_mem_cons.mp he
    obtain ⟨hnot, hn⟩ := List.nodup_cons.mp hn
    have hexec := h.isExecuted_iff henv
    rw [List.foldl_cons, strictStep]
    split
    · rename_i hskip
      obtain ⟨executed, heq⟩ := ih h hrest hn
      refine ⟨executed, ?_⟩
      rw [heq, List.filter_cons_of_neg]
      grind
    · rename_i hfresh
      obtain ⟨executed, heq⟩ := ih (h.apply henv) hrest hn
      obtain ⟨k, hk⟩ := h.keyed env henv
      refine ⟨executed, ?_⟩
      have hrestEq : envs.filter (fun e => !o.isClass1 e && decide (e ∉ o.emitted ++ [env])) =
          envs.filter fun e => !o.isClass1 e && decide (e ∉ o.emitted) := by
        refine List.filter_congr fun e hmem => ?_
        have hne : e ≠ env := by
          rintro rfl
          exact hnot hmem
        simp [hne]
      rw [heq, applyEnv_of_key hk, List.filter_cons_of_pos (by grind), ← hrestEq,
        List.append_cons o.emitted env (envs.filter _)]
      rfl

end Sees

section Ordered

structure Ordered (D : List Envelope) (o : SemOrder) : Prop extends Sees D o where
  single : ∀ a ∈ D, ∀ b ∈ D, o.isClass1 a = false → o.isClass1 b = false → a.wave = b.wave →
    a.sender = b.sender → a = b
  passed : ∀ e ∈ D, o.isClass1 e = false → e.wave < o.currentWave → e ∈ o.emitted
  bounded : ∀ e ∈ o.emitted, o.isClass1 e = false → e.wave ≤ o.currentWave
  complete : ∀ e ∈ o.emitted, o.isClass1 e = false → ∀ f ∈ D, o.isClass1 f = false →
    f.wave ≤ e.wave → f ∈ o.emitted
  gated : ∀ e ∈ o.emitted, o.isClass1 e = false → ∀ r ∈ o.membership.replicas,
    ∃ x ∈ D, x.sender = r ∧ e.wave < x.wave
  sorted : o.strictEmitted.Pairwise Precedes

theorem ordered_new (classifier : List UInt8 → ℤ) (m : Membership) :
    Ordered [] (new classifier m) :=
  ⟨sees_new classifier m, by simp, by simp, by simp [new], by simp [new], by simp [new],
    List.Pairwise.nil⟩

theorem Ordered.observe (h : Ordered D o) {k : Key} (hk : o.membership.keyOf env = some k)
    (hnew : ∀ e ∈ D, o.membership.keyOf e ≠ some k) (hr : env.sender ∈ o.membership.replicas)
    (hin : ∀ x ∈ D, x.sender = env.sender → x.wave ≤ env.wave) (ht : o.Timely env) :
    Ordered (D ++ [env]) (o.observe env) := by
  have hsees := h.toSees.observe hk hnew
  obtain ⟨latest, _, heq⟩ := observe_of_unseen hk (h.unseen hnew _)
  rw [heq] at hsees ⊢
  refine ⟨hsees, ?_, ?_, h.bounded, ?_, ?_, h.sorted⟩
  · intro a ha b hb hca hcb hw hs
    simp only [List.mem_append, List.mem_singleton] at ha hb
    rcases ha with ha | rfl <;> rcases hb with hb | rfl
    · exact h.single a ha b hb hca hcb hw hs
    · exact absurd hs ((ht hcb).2 a ((h.stored _ _).mpr ⟨ha, hw⟩) hca)
    · exact absurd hs.symm ((ht hca).2 b ((h.stored _ _).mpr ⟨hb, hw.symm⟩) hcb)
    · rfl
  · intro e he hc hw
    rcases List.mem_append.mp he with he | he
    · exact h.passed e he hc hw
    · rw [List.mem_singleton.mp he] at hc hw
      have := (ht hc).1
      dsimp only at hw
      omega
  · intro e he hc f hf hcf hw
    rcases List.mem_append.mp hf with hf | hf
    · exact h.complete e he hc f hf hcf hw
    · rw [List.mem_singleton.mp hf] at hw
      obtain ⟨x, hx, hxs, hxw⟩ := h.gated e he hc env.sender hr
      have := hin x hx hxs
      omega
  · intro e he hc r hr
    obtain ⟨x, hx, hxr⟩ := h.gated e he hc r hr
    exact ⟨x, List.mem_append_left _ hx, hxr⟩

theorem Ordered.received (h : Ordered D o) (n : ℕ) : Ordered D { o with received := n } :=
  ⟨h.toSees.received n, h.single, h.passed, h.bounded, h.complete, h.gated, h.sorted⟩

/-- An operation of class 1 changes nothing for the strict ones. -/
theorem Ordered.apply (h : Ordered D o) (he : env ∈ D) (hc : o.isClass1 env = true) :
    Ordered D (o.applyEnv env) := by
  have hsees := h.toSees.apply he
  obtain ⟨k, hk⟩ := h.keyed env he
  rw [applyEnv_of_key hk] at hsees ⊢
  have hold : ∀ e ∈ o.emitted ++ [env], o.isClass1 e = false → e ∈ o.emitted := by
    intro e hmem hce
    rcases List.mem_append.mp hmem with hmem | hmem
    · exact hmem
    · rw [List.mem_singleton.mp hmem, hc] at hce
      cases hce
  have hstrict : (o.emitted ++ [env]).filter (fun e => !o.isClass1 e) = o.strictEmitted := by
    simp [strictEmitted, hc]
  refine ⟨hsees, h.single, fun e he hce hw => List.mem_append_left _ (h.passed e he hce hw),
    fun e he hce => h.bounded e (hold e he hce) hce, ?_,
    fun e he hce => h.gated e (hold e he hce) hce, ?_⟩
  · intro e he hce f hf hcf hw
    exact List.mem_append_left _ (h.complete e (hold e he hce) hce f hf hcf hw)
  · change ((o.emitted ++ [env]).filter fun e => !o.isClass1 e).Pairwise Precedes
    rw [hstrict]
    exact h.sorted

/-- What the current wave still has to emit, in the order of the sort. -/
def fresh (ch : SemChoices) (o : SemOrder) : List Envelope :=
  (ch.sort (o.inWave o.currentWave)).filter fun e => !o.isClass1 e && decide (e ∉ o.emitted)

theorem Sees.mem_fresh (h : Sees D o) {e : Envelope} : e ∈ o.fresh ch ↔
    e ∈ D ∧ e.wave = o.currentWave ∧ o.isClass1 e = false ∧ e ∉ o.emitted := by
  rw [fresh, List.mem_filter, (ch.sort_isSortOf _).mem_iff, h.stored]
  simp [and_assoc]

theorem Sees.drainWave (h : Sees D o) (ch : SemChoices) : ∃ executed, o.drainWave ch = { o with
    messagesByWave := o.messagesByWave.insert o.currentWave (ch.sort (o.inWave o.currentWave))
    executed := executed
    emitted := o.emitted ++ o.fresh ch } := by
  have hsort := (ch.sort_isSortOf (o.inWave o.currentWave)).1
  refine (h.sort hsort).foldl_strictStep ?_ (hsort.nodup_iff.mpr (h.nodup _))
  intro e he
  exact ((h.stored _ _).mp (hsort.mem_iff.mp he)).1

/-- The gate of the current wave: every active replica was heard of in a later one. -/
theorem Sees.gate (h : Sees D o) (hc : o.continuationProperty = true) {r : ReplicaID}
    (hr : r ∈ o.membership.replicas) : ∃ x ∈ D, x.sender = r ∧ o.currentWave < x.wave := by
  have hlast := List.all_eq_true.mp hc r hr
  split at hlast
  · cases hlast
  · rename_i v hv
    obtain ⟨x, hx, hxr, hxv⟩ := h.latest r v hv
    refine ⟨x, hx, hxr, ?_⟩
    rw [Envelope.wave, hxv]
    exact of_decide_eq_true hlast

theorem Ordered.pairwise_fresh (h : Ordered D o) : (o.fresh ch).Pairwise Precedes := by
  have hsort := ch.sort_isSortOf (o.inWave o.currentWave)
  have hnodup : (o.fresh ch).Nodup :=
    (hsort.1.nodup_iff.mpr (h.nodup _)).filter _
  have hsorted : (o.fresh ch).Pairwise fun a b => ¬ bySender b a := hsort.2.filter _
  refine List.Pairwise.imp_of_mem ?_ (hsorted.and hnodup)
  rintro a b ha hb ⟨hle, hne⟩
  obtain ⟨haD, haw, hac, _⟩ := h.mem_fresh.mp ha
  obtain ⟨hbD, hbw, hbc, _⟩ := h.mem_fresh.mp hb
  have hw : a.wave = b.wave := haw.trans hbw.symm
  refine Or.inr ⟨hw, ?_⟩
  by_contra hge
  exact hne (h.single a haD b hbD hac hbc hw (List.le_antisymm hle hge))

/-- Whatever is emitted stands before what the current wave still has to emit. -/
theorem Ordered.precedes_fresh (h : Ordered D o) {a b : Envelope} (ha : a ∈ o.emitted)
    (hc : o.isClass1 a = false) (hb : b ∈ o.fresh ch) : Precedes a b := by
  obtain ⟨hbD, hbw, hbc, hbo⟩ := h.mem_fresh.mp hb
  refine Or.inl ?_
  by_contra hge
  exact hbo (h.complete a ha hc b hbD hbc (by omega))

/-- What was received of the strict operations below the current wave is emitted. -/
def Passed (D : List Envelope) (o : SemOrder) : Prop :=
  ∀ e ∈ D, o.isClass1 e = false → e.wave < o.currentWave → e ∈ o.emitted

/-- With what the current wave has to emit, the strict operations up to it are complete. -/
theorem Passed.mem_append_fresh (hp : Passed D o) (h : Sees D o) (ch : SemChoices) : ∀ e ∈ D,
    o.isClass1 e = false → e.wave ≤ o.currentWave → e ∈ o.emitted ++ o.fresh ch := by
  intro e he hce hw
  by_cases hout : e ∈ o.emitted
  · exact List.mem_append_left _ hout
  · rcases Nat.lt_or_eq_of_le hw with hlt | heq
    · exact absurd (hp e he hce hlt) hout
    · exact List.mem_append_right _ (h.mem_fresh.mpr ⟨he, heq, hce, hout⟩)

theorem Sees.filter_append_fresh (h : Sees D o) :
    (o.emitted ++ o.fresh ch).filter (fun e => !o.isClass1 e) =
      o.strictEmitted ++ o.fresh ch := by
  have hall : (o.fresh ch).filter (fun e => !o.isClass1 e) = o.fresh ch := by
    refine List.filter_eq_self.mpr fun e he => ?_
    simp [(h.mem_fresh.mp he).2.2.1]
  rw [List.filter_append, hall, strictEmitted]

/-- Every strict operation that was received in a wave up to the current one is emitted. -/
def Drained (D : List Envelope) (o : SemOrder) : Prop :=
  ∀ e ∈ D, o.isClass1 e = false → e.wave ≤ o.currentWave → e ∈ o.emitted

theorem Ordered.drainWave (h : Ordered D o) (hc : o.continuationProperty = true) :
    Ordered D (o.drainWave ch) ∧ Drained D (o.drainWave ch) := by
  have hsees : Sees D (o.drainWave ch) := h.toSees.moves (moves_drainWave o)
  obtain ⟨executed, heq⟩ := h.toSees.drainWave ch
  rw [heq] at hsees ⊢
  have hnew : ∀ e ∈ o.emitted ++ o.fresh ch, e ∈ o.emitted ∨ e.wave = o.currentWave := by
    intro e he
    rcases List.mem_append.mp he with he | he
    · exact Or.inl he
    · exact Or.inr (h.mem_fresh.mp he).2.1
  have hdrained := Passed.mem_append_fresh h.passed h.toSees ch
  refine ⟨⟨hsees, h.single, fun e he hce hw => hdrained e he hce hw.le, ?_, ?_, ?_, ?_⟩, hdrained⟩
  · intro e he hce
    rcases hnew e he with he | hw
    · exact h.bounded e he hce
    · exact hw.le
  · intro e he hce f hf hcf hw
    rcases hnew e he with he | hew
    · exact List.mem_append_left _ (h.complete e he hce f hf hcf hw)
    · exact hdrained f hf hcf (by omega)
  · intro e he hce r hr
    rcases hnew e he with he | hw
    · exact h.gated e he hce r hr
    · rw [hw]
      exact h.toSees.gate hc hr
  · change ((o.emitted ++ o.fresh ch).filter fun e => !o.isClass1 e).Pairwise Precedes
    rw [h.filter_append_fresh, List.pairwise_append]
    refine ⟨h.sorted, h.pairwise_fresh, ?_⟩
    intro a ha b hb
    obtain ⟨ha, hac⟩ := List.mem_filter.mp ha
    exact h.precedes_fresh ha (by simpa using hac) hb

theorem Ordered.tryEagerExecutions (h : Ordered D o) : Ordered D (o.tryEagerExecutions ch) :=
  eagerLoop_induction (fun _ _ _ h hw hc _ _ => h.apply ((h.stored _ _).mp hw).1 hc) _ h

theorem findNextStrictWave_eq_some {start next : ℕ} (h : o.findNextStrictWave start = some next) :
    start ≤ next ∧ ∀ w, start ≤ w → w < next → ∀ e ∈ o.inWave w, o.isClass1 e = true := by
  rw [findNextStrictWave, List.find?_range'_eq_some] at h
  obtain ⟨_, hmem, hbefore⟩ := h
  refine ⟨(List.mem_range'_1.mp hmem).1, ?_⟩
  intro w hw hlt
  simpa using hbefore w hw hlt

theorem Drained.apply (h : Drained D o) (env : Envelope) : Drained D (o.applyEnv env) := by
  unfold applyEnv
  split
  · exact h
  · exact fun e he hc hw => List.mem_append_left _ (h e he hc hw)

/-- The next round skips no strict operation that was received. -/
theorem Drained.passed (hd : Drained D o) (h : Sees D o) {next : ℕ}
    (hnext : o.findNextStrictWave (o.currentWave + 1) = some next) :
    Passed D { o with currentWave := next } := by
  intro e he hc hw
  by_cases hle : e.wave ≤ o.currentWave
  · exact hd e he hc hle
  · have hclass := (findNextStrictWave_eq_some hnext).2 e.wave (by omega) hw e
      ((h.stored _ _).mpr ⟨he, rfl⟩)
    have hfalse : o.isClass1 e = false := hc
    rw [hfalse] at hclass
    cases hclass

theorem Ordered.advance (h : Ordered D o) (hd : Drained D o) {next : ℕ}
    (hnext : o.findNextStrictWave (o.currentWave + 1) = some next) :
    Ordered D { o with currentWave := next } := by
  refine ⟨h.toSees.move (.advance next), h.single, hd.passed h.toSees hnext, ?_, h.complete,
    h.gated, h.sorted⟩
  intro e he hc
  have hle := h.bounded e he hc
  have hlt := (findNextStrictWave_eq_some hnext).1
  dsimp only
  omega

theorem Ordered.advanceLoop (h : Ordered D o) (fuel : ℕ) : Ordered D (o.advanceLoop ch fuel) := by
  induction fuel generalizing o with
  | zero => exact h
  | succ fuel ih =>
    rw [SemOrder.advanceLoop]
    split
    · rename_i hgate
      have hround : Ordered D ((o.drainWave ch).tryEagerExecutions ch) ∧
          Drained D ((o.drainWave ch).tryEagerExecutions ch) := by
        refine eagerLoop_induction (P := fun o => Ordered D o ∧ Drained D o) ?_ _
          (h.drainWave (Bool.and_eq_true_iff.mp hgate).2)
        rintro o env w ⟨ho, hd⟩ hw hc - -
        exact ⟨ho.apply ((ho.stored _ _).mp hw).1 hc, hd.apply env⟩
      dsimp only
      split
      · exact hround.1
      · rename_i next hnext
        exact ih (hround.1.advance hround.2 hnext)
    · exact h

/-- The work on one delivery. -/
theorem Ordered.pump {c : Conversation} (h : Ordered D o) (hp : o.pump c ch = some o')
    (henv : c.delivered[o.received]? = some env) {k : Key}
    (hk : o.membership.keyOf env = some k) (hnew : ∀ e ∈ D, o.membership.keyOf e ≠ some k)
    (hr : env.sender ∈ o.membership.replicas)
    (hin : ∀ x ∈ D, x.sender = env.sender → x.wave ≤ env.wave) (ht : o.Timely env) :
    Ordered (D ++ [env]) o' := by
  rw [SemOrder.pump, henv] at hp
  obtain rfl := Option.some.inj hp
  exact ((h.observe hk hnew hr hin ht).received _).tryEagerExecutions.advanceLoop _

end Ordered

end Comlink.SemOrder
