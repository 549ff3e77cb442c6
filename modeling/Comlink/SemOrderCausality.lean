import Comlink.EagerExecutions
import Comlink.SemOrderRounds

/-!
# The semantic order layer and causal order

An operation of class 1 is emitted when its predecessors are. A strict operation waits for
its wave only: what precedes it in earlier waves is emitted by then, if nothing strict came
late, but its own wave is emitted in the order of the senders, and what commutes follows
when a strict predecessor of the same wave is out. So causal order needs that a strict
operation is preceded in its own wave only by strict operations of smaller senders, and by
operations of class 1 that wait for no strict one.
-/
namespace Comlink.SemOrder
open SortedPermutations VectorClock

variable {D : List Envelope} {o : SemOrder} {env : Envelope} {ch : SemChoices}

/-- `a` is in the past of `b`, by their clocks. -/
def Past (a b : Envelope) : Prop := happensBefore a.id.vectorClock b.id.vectorClock = true

instance (a b : Envelope) : Decidable (Past a b) := inferInstanceAs (Decidable (_ = true))

theorem Past.trans {a b c : Envelope} (h : Past a b) (h' : Past b c) : Past a c :=
  happensBefore_trans h h'

theorem Past.wave_le {a b : Envelope} (h : Past a b) : a.wave ≤ b.wave :=
  (happensBefore_iff.mp h).1.waveOf_le

/-- What the strict operation `env` may find of its past among the messages `envs` of its
own wave. -/
def Arranged (o : SemOrder) (envs : List Envelope) (env : Envelope) : Prop :=
  ∀ f ∈ envs, Past f env → (o.isClass1 f = false → bySender f env) ∧
    (o.isClass1 f = true → ∀ g ∈ envs, o.isClass1 g = false → ¬ Past g f)

/-- A strict operation is read before the layer has passed its wave, and the past that it
has there is arranged. -/
def InOrder (o : SemOrder) (env : Envelope) : Prop :=
  o.isClass1 env = false → o.currentWave ≤ env.wave ∧ o.Arranged (o.inWave env.wave) env

instance (o : SemOrder) (env : Envelope) : Decidable (o.InOrder env) :=
  inferInstanceAs (Decidable (_ → _ ∧ ∀ f ∈ _, Past f env → (_ → bySender f env) ∧
    (_ → ∀ g ∈ _, _ → ¬ Past g f)))

/-- The immediate causal predecessors of the message are among `pre`. -/
def Preceded (m : Membership) (pre : List Envelope) (env : Envelope) : Prop :=
  ∀ k ∈ Graph.derivedParents m env, ∃ f ∈ pre, m.keyOf f = some k

/-- A message that the conversation delivers after the messages of `pre`. -/
structure Follows (m : Membership) (pre : List Envelope) (env : Envelope) : Prop where
  slot : ∃ slot, m.slotOf env.sender = some slot ∧ slot < env.id.vectorClock.length
  length_le : env.id.vectorClock.length ≤ m.len
  parents : ∀ k ∈ Graph.derivedParents m env, ∃ f ∈ pre, m.keyOf f = some k ∧ Past f env

/-- `predecessorsExecuted` asks for the parents that the conversation derives. -/
theorem predecessorsExecuted_of_parents {slot : ℕ}
    (hslot : o.membership.slotOf env.sender = some slot) (hlt : slot < env.id.vectorClock.length)
    (hrange : ∀ i, o.membership.len ≤ i → env.id.vectorClock.atSlot i = 0)
    (hx : ∀ k ∈ Graph.derivedParents o.membership env, k ∈ o.executed) :
    o.predecessorsExecuted env = true := by
  have hseq : o.membership.senderSeq env.id = some (env.id.vectorClock.atSlot slot) := by
    have hs : env.id.sender.getD [] = env.sender := rfl
    rw [Membership.senderSeq, hs, hslot]
    exact if_pos hlt
  have hparent : ∀ (i : ℕ) (r : ReplicaID) (q : ℕ), o.membership.allReplicas[i]? = some r →
      Graph.requiredSeq slot (env.id.vectorClock.atSlot slot) env.id.vectorClock i = some q →
      (⟨r, q⟩ : Key) ∈ o.executed := by
    intro i r q hr hq
    refine hx _ ?_
    rw [Graph.derivedParents, hslot]
    exact Graph.mem_requiredParents.mpr ⟨i, hr, hq⟩
  rw [predecessorsExecuted, hslot, hseq]
  simp only [List.all_eq_true, Prod.forall, List.mem_zipIdx_iff_getElem?]
  intro x i hx
  obtain ⟨hi, hget⟩ := List.getElem?_eq_some_iff.mp hx
  have hentry : env.id.vectorClock.atSlot i = x := by rw [atSlot_eq_getElem hi, hget]
  rw [entryExecuted]
  by_cases his : i = slot
  · subst his
    rw [if_pos rfl]
    by_cases hle : env.id.vectorClock.atSlot i ≤ 1
    · simp [hle]
    · have hmem := hparent i env.sender (env.id.vectorClock.atSlot i - 1)
        (Membership.slotOf_getElem? hslot) (by rw [Graph.requiredSeq, if_pos rfl, if_neg hle])
      simp [hmem]
  · rw [if_neg his]
    by_cases hz : x = 0
    · simp [hz]
    · have hlen : i < o.membership.allReplicas.length := by
        by_contra hge
        exact hz (hentry.symm.trans (hrange i (Nat.le_of_not_lt hge)))
      have hr := List.getElem?_eq_getElem hlen
      have hmem := hparent i _ x hr (by
        rw [Graph.requiredSeq, if_neg his, if_neg (by rwa [hentry]), hentry])
      simp [hr, hmem]

/-- What `predecessorsExecuted` asks for covers the derived parents. -/
theorem executed_of_predecessorsExecuted (h : o.predecessorsExecuted env = true) {k : Key}
    (hk : k ∈ Graph.derivedParents o.membership env) : k ∈ o.executed := by
  rw [predecessorsExecuted] at h
  split at h
  · rename_i slot seq hslot hseq
    have hs : env.id.sender.getD [] = env.sender := rfl
    rw [Membership.senderSeq, hs, hslot] at hseq
    dsimp only at hseq
    split_ifs at hseq with hlt
    obtain rfl := Option.some.inj hseq
    rw [Graph.derivedParents, hslot] at hk
    obtain ⟨i, hr, hq⟩ := Graph.mem_requiredParents.mp hk
    simp only [List.all_eq_true, Prod.forall, List.mem_zipIdx_iff_getElem?] at h
    rw [Graph.requiredSeq] at hq
    by_cases his : i = slot
    · subst his
      rw [if_pos rfl] at hq
      split_ifs at hq with hle
      have hentry := h _ i (List.getElem?_eq_getElem hlt)
      have hsender := Membership.slotOf_getElem? hslot
      rw [hr] at hsender
      rw [entryExecuted, if_pos rfl] at hentry
      have hkey : k = ⟨env.sender, env.id.vectorClock.atSlot i - 1⟩ :=
        Key.ext (Option.some.inj hsender) (Option.some.inj hq).symm
      rw [hkey]
      simpa [hle] using hentry
    · rw [if_neg his] at hq
      split_ifs at hq with hz
      have hi : i < env.id.vectorClock.length := by
        by_contra hge
        exact hz (atSlot_of_length_le (by omega))
      have hentry := h _ i (List.getElem?_eq_getElem hi)
      rw [entryExecuted, if_neg his, hr] at hentry
      rw [atSlot_eq_getElem hi] at hz hq
      have hkey : k = ⟨k.sender, env.id.vectorClock[i]⟩ := Key.ext rfl (Option.some.inj hq).symm
      rw [hkey]
      simpa [hz] using hentry
  · cases h

section Causal

/-- A layer that has received the messages of `D`, which come after their parents and whose
strict operations were in order, and that has emitted nothing before its predecessors. -/
structure Causal (D : List Envelope) (o : SemOrder) : Prop extends Sees D o where
  follows : ∀ pre e post, D = pre ++ e :: post → Follows o.membership pre e
  arranged : ∀ pre e post, D = pre ++ e :: post → o.isClass1 e = false →
    o.Arranged (pre.filter (·.wave = e.wave)) e
  passed : Passed D o
  respected : ∀ pre e post, o.emitted = pre ++ e :: post → Preceded o.membership pre e

theorem causal_new (classifier : List UInt8 → ℤ) (m : Membership) :
    Causal [] (new classifier m) :=
  ⟨sees_new classifier m, by simp, by simp, by simp [Passed], by simp [new]⟩

/-- In a settled layer a set of messages that is closed under the past is emitted once its
strict operations are. -/
theorem Causal.emitted_of_closed (h : Causal D o) (hs : o.Settled) {S : Envelope → Prop}
    {L R : List Envelope} (hD : D = L ++ R)
    (hS : ∀ pre e post, L = pre ++ e :: post → S e → ∀ f ∈ pre, Past f e → S f)
    (hstrict : ∀ e ∈ L, S e → o.isClass1 e = false → e ∈ o.emitted) :
    ∀ e ∈ L, S e → e ∈ o.emitted := by
  induction L using List.reverseRecOn generalizing R with
  | nil => simp
  | append_singleton L x ih =>
    have hinit := ih (R := x :: R) (by simpa using hD)
      (fun pre e post he => hS pre e (post ++ [x]) (by simp [he]))
      (fun e he => hstrict e (List.mem_append_left _ he))
    intro e he hSe
    rcases List.mem_append.mp he with he | he
    · exact hinit e he hSe
    · obtain rfl := List.mem_singleton.mp he
      cases hc : o.isClass1 e with
      | false => exact hstrict e (by simp) hSe hc
      | true =>
        have hfollows := h.follows L e R (by simpa using hD)
        have heD : e ∈ D := by simp [hD]
        have hpre : o.predecessorsExecuted e = true := by
          obtain ⟨slot, hslot, hlt⟩ := hfollows.slot
          refine predecessorsExecuted_of_parents hslot hlt (fun i hi =>
            VectorClock.atSlot_of_length_le (hfollows.length_le.trans hi)) fun k hk => ?_
          obtain ⟨f, hf, hfk, hpast⟩ := hfollows.parents k hk
          exact (h.executed k).mpr ⟨f, hinit f hf (hS L e [] rfl hSe f hf hpast), hfk⟩
        exact (h.isExecuted_iff heD).mp (hs _ e ((h.stored _ _).mpr ⟨heD, rfl⟩) hc hpre)

/-- Before a wave is drained, everything received below it is emitted. -/
theorem Causal.emitted_of_wave_lt (h : Causal D o) (hs : o.Settled) :
    ∀ e ∈ D, e.wave < o.currentWave → e ∈ o.emitted := by
  refine h.emitted_of_closed hs (S := fun e => e.wave < o.currentWave) (L := D) (R := [])
    (by simp) ?_ ?_
  · intro pre e post _ hw f _ hpast
    exact hpast.wave_le.trans_lt hw
  · exact fun e he hw hc => h.passed e he hc hw

/-- So is what a strict operation of the current wave has in its past there and what does
not wait for a strict one. -/
theorem Causal.emitted_of_class1 (h : Causal D o) (hs : o.Settled) {pre post : List Envelope}
    {e : Envelope} (hD : D = pre ++ e :: post) (hw : e.wave = o.currentWave)
    (hc : o.isClass1 e = false) {f : Envelope} (hf : f ∈ pre) (hfw : f.wave = e.wave)
    (hpast : Past f e) (hfc : o.isClass1 f = true) : f ∈ o.emitted := by
  have harr := h.arranged pre e post hD hc
  have hwait := (harr f (List.mem_filter.mpr ⟨hf, by simpa using hfw⟩) hpast).2 hfc
  refine h.emitted_of_closed hs (L := pre) (R := e :: post) hD
    (S := fun q => q.wave < e.wave ∨ q.wave = e.wave ∧ o.isClass1 q = true ∧
      ∀ g ∈ pre.filter (·.wave = e.wave), o.isClass1 g = false → ¬ Past g q) ?_ ?_ f hf
    (Or.inr ⟨hfw, hfc, hwait⟩)
  · intro l q r hl hq g hg hgq
    have hgpre : g ∈ pre := by simp [hl, hg]
    rcases hq with hlt | ⟨hqw, hqc, hnone⟩
    · exact Or.inl (hgq.wave_le.trans_lt hlt)
    · rcases Nat.lt_or_eq_of_le (hqw ▸ hgq.wave_le) with hlt | heq
      · exact Or.inl hlt
      · have hgw : g ∈ pre.filter (·.wave = e.wave) :=
          List.mem_filter.mpr ⟨hgpre, by simpa using heq⟩
        refine Or.inr ⟨heq, ?_, fun g' hg' hc' hpast' => hnone g' hg' hc' (hpast'.trans hgq)⟩
        by_contra hgc
        exact hnone g hgw (by simpa using hgc) hgq
  · intro q hq hSq hqc
    have hqD : q ∈ D := by simp [hD, hq]
    rcases hSq with hlt | ⟨_, hqc', _⟩
    · exact h.passed q hqD hqc (hw ▸ hlt)
    · rw [hqc'] at hqc
      cases hqc

/-- The order of the sort puts a strict operation behind those that precede it. -/
theorem Causal.preceded_fresh (h : Causal D o) (hs : o.Settled) :
    ∀ pre e post, o.fresh ch = pre ++ e :: post →
      Preceded o.membership (o.emitted ++ pre) e := by
  intro l e r hl k hk
  have he : e ∈ o.fresh ch := by simp [hl]
  obtain ⟨heD, hw, hc, -⟩ := h.mem_fresh.mp he
  obtain ⟨pre, post, hD⟩ := List.append_of_mem heD
  obtain ⟨f, hf, hfk, hpast⟩ := (h.follows pre e post hD).parents k hk
  have hfD : f ∈ D := by simp [hD, hf]
  refine ⟨f, ?_, hfk⟩
  rcases Nat.lt_or_eq_of_le hpast.wave_le with hlt | hfw
  · exact List.mem_append_left _ (h.emitted_of_wave_lt hs f hfD (hw ▸ hlt))
  · cases hfc : o.isClass1 f with
    | true => exact List.mem_append_left _ (h.emitted_of_class1 hs hD hw hc hf hfw hpast hfc)
    | false =>
      have hlt : bySender f e := (h.arranged pre e post hD hc f
        (List.mem_filter.mpr ⟨hf, by simpa using hfw⟩) hpast).1 hfc
      by_cases hout : f ∈ o.emitted
      · exact List.mem_append_left _ hout
      · have hfresh : f ∈ o.fresh ch := h.mem_fresh.mpr ⟨hfD, hfw.trans hw, hfc, hout⟩
        have hsorted : (o.fresh ch).Pairwise fun a b => ¬ bySender b a :=
          (ch.sort_isSortOf (o.inWave o.currentWave)).2.filter _
        rw [hl] at hfresh hsorted
        rcases List.mem_append.mp hfresh with hfl | hfr
        · exact List.mem_append_right _ hfl
        · rcases List.mem_cons.mp hfr with rfl | hfr
          · exact absurd hlt (List.lt_irrefl _)
          · have hnot := (List.pairwise_cons.mp (List.pairwise_append.mp hsorted).2.1).1 f hfr
            exact absurd hlt hnot

theorem Causal.observe (h : Causal D o) {k : Key} (hk : o.membership.keyOf env = some k)
    (hnew : ∀ e ∈ D, o.membership.keyOf e ≠ some k) (hf : Follows o.membership D env)
    (hin : o.InOrder env) : Causal (D ++ [env]) (o.observe env) := by
  have hsees := h.toSees.observe hk hnew
  obtain ⟨latest, _, heq⟩ := observe_of_unseen hk (h.unseen hnew _)
  rw [heq] at hsees ⊢
  refine ⟨hsees, ?_, ?_, ?_, h.respected⟩
  · exact ListScans.forall_split_concat.mpr ⟨h.follows, hf⟩
  · refine ListScans.forall_split_concat.mpr ⟨h.arranged, fun hc => ?_⟩
    have hsame : ∀ f, f ∈ D.filter (·.wave = env.wave) ↔ f ∈ o.inWave env.wave := by
      intro f
      rw [h.stored, List.mem_filter]
      simp
    intro f hfm hpast
    obtain ⟨hstrict, hclass⟩ := (hin hc).2 f ((hsame f).mp hfm) hpast
    exact ⟨hstrict, fun hfc g hg => hclass hfc g ((hsame g).mp hg)⟩
  · intro e he hc hw
    rcases List.mem_append.mp he with he | he
    · exact h.passed e he hc hw
    · rw [List.mem_singleton.mp he] at hc hw
      have hle := (hin hc).1
      dsimp only at hw
      omega

theorem Causal.received (h : Causal D o) (n : ℕ) : Causal D { o with received := n } :=
  ⟨h.toSees.received n, h.follows, h.arranged, h.passed, h.respected⟩

theorem Causal.apply (h : Causal D o) (he : env ∈ D) (hp : o.predecessorsExecuted env = true) :
    Causal D (o.applyEnv env) := by
  have hsees := h.toSees.apply he
  obtain ⟨k, hk⟩ := h.keyed env he
  rw [applyEnv_of_key hk] at hsees ⊢
  refine ⟨hsees, h.follows, h.arranged,
    fun e he hc hw => List.mem_append_left _ (h.passed e he hc hw), ?_⟩
  refine ListScans.forall_split_concat.mpr ⟨h.respected, fun k' hk' => ?_⟩
  exact (h.executed k').mp (executed_of_predecessorsExecuted hp hk')

theorem Causal.drainWave (h : Causal D o) (hs : o.Settled) :
    Causal D (o.drainWave ch) ∧ Drained D (o.drainWave ch) := by
  have hsees : Sees D (o.drainWave ch) := h.toSees.moves (moves_drainWave o)
  obtain ⟨executed, heq⟩ := h.toSees.drainWave ch
  rw [heq] at hsees ⊢
  have hdrained := h.passed.mem_append_fresh h.toSees ch
  exact ⟨⟨hsees, h.follows, h.arranged, fun e he hc hw => hdrained e he hc hw.le,
    ListScans.forall_split_append h.respected (h.preceded_fresh hs)⟩, hdrained⟩

theorem Causal.tryEagerExecutions (h : Causal D o) : Causal D (o.tryEagerExecutions ch) :=
  eagerLoop_induction (fun _ _ _ h hw _ _ hp => h.apply ((h.stored _ _).mp hw).1 hp) _ h

theorem Causal.advanceLoop (h : Causal D o) (hs : o.Settled) (fuel : ℕ) :
    Causal D (o.advanceLoop ch fuel) := by
  induction fuel generalizing o with
  | zero => exact h
  | succ fuel ih =>
    rw [SemOrder.advanceLoop]
    split
    · have hround : Causal D ((o.drainWave ch).tryEagerExecutions ch) ∧
          Drained D ((o.drainWave ch).tryEagerExecutions ch) := by
        refine eagerLoop_induction (P := fun o => Causal D o ∧ Drained D o) ?_ _ (h.drainWave hs)
        rintro o env w ⟨ho, hd⟩ hw - - hp
        exact ⟨ho.apply ((ho.stored _ _).mp hw).1 hp, hd.apply env⟩
      have hsettled := settled_tryEagerExecutions (o.drainWave ch) ch
      dsimp only
      split
      · exact hround.1
      · rename_i next hnext
        refine ih ?_ hsettled
        exact ⟨hround.1.toSees.move (.advance next), hround.1.follows, hround.1.arranged,
          hround.2.passed hround.1.toSees hnext, hround.1.respected⟩
    · exact h

/-- The work on one delivery. -/
theorem Causal.pump {c : Conversation} {o' : SemOrder} (h : Causal D o)
    (hp : o.pump c ch = some o') (henv : c.delivered[o.received]? = some env) {k : Key}
    (hk : o.membership.keyOf env = some k) (hnew : ∀ e ∈ D, o.membership.keyOf e ≠ some k)
    (hf : Follows o.membership D env) (hin : o.InOrder env) : Causal (D ++ [env]) o' := by
  rw [SemOrder.pump, henv] at hp
  obtain rfl := Option.some.inj hp
  have hobserved := (h.observe hk hnew hf hin).received (o.received + 1)
  exact hobserved.tryEagerExecutions.advanceLoop (settled_tryEagerExecutions _ ch) _

end Causal

end Comlink.SemOrder
