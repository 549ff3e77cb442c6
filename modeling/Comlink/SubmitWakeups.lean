import Comlink.SubmitWaiters
import Comlink.ListScans

/-!
# Submit returns once its message was applied

The invariant of the interleavings of `Submit` with the apply pump. A registered waiter
belongs to a call past its `Send` whose message is not handled; a marker stands for a
message that was applied; and a waiting call is registered, or the pump has its channel in
hand, or has closed it.
-/
namespace Comlink.SubmitRun
open GuardedRuns ListScans

variable {K : FrameCodec} {S sub' : Substrate} {s t : SubmitRun} {env : Envelope} {k : Key}
variable {i : ℕ} {call : SubmitCall}

/-- `Apply` ran for the message of an envelope. -/
def Ran (K : FrameCodec) (s : SubmitRun) (env : Envelope) : Prop :=
  ∃ payload offset, K.unmarshal env.payload = some (.app payload) ∧
    ⟨env.id, payload, env.sender, offset, env.wave⟩ ∈ s.sub.applied

/-- The channel of a call is registered, or the pump has it in hand or has closed it. -/
def Watched (s : SubmitRun) (i : ℕ) (call : SubmitCall) (k : Key) : Prop :=
  k ∈ s.sub.pendingApplies ∧ s.waiter k = i ∨ s.pump = .closing call.env i ∨ call.closes ≠ 0

/-- What holds of a call at a stage. -/
def Attended (K : FrameCodec) (S : Substrate) (s : SubmitRun) (i : ℕ) (call : SubmitCall) :
    SubmitStage → Prop
  | .sent => call.closes = 0 ∧
      ∀ k ∈ S.keyOf call.env, call.env ∈ s.handled → k ∈ s.sub.appliedSelf
  | .waiting k => S.keyOf call.env = some k ∧ Watched s i call k
  | .cancelled k => S.keyOf call.env = some k
  | .returned err => err = none → Ran K s call.env

/-- A call whose channel is still to be closed, for a message that is not handled. -/
structure Unsignalled (handled : List Envelope) (call : SubmitCall) : Prop where
  closes : call.closes = 0
  notHandled : call.env ∉ handled
  stage : call.stage ≠ .sent

/-- What holds of the pump at a stage. -/
def PumpSound (K : FrameCodec) (S : Substrate) (s : SubmitRun) : PumpStage → Prop
  | .idle => True
  | .applied env k => S.keyOf env = some k ∧ Ran K s env ∧ (env.sender = S.self → env ∈ s.sent)
  | .closing env i => Ran K s env ∧ (∀ k ∈ S.keyOf env, k ∉ s.sub.pendingApplies) ∧
      ∃ call, s.calls[i]? = some call ∧ call.env = env ∧ Unsignalled s.handled call

/-- `S` is the substrate at the start, whose member list stays. -/
structure Invariant (K : FrameCodec) (S : Substrate) (s : SubmitRun) : Prop where
  members : s.sub.members = S.members
  self : s.sub.self = S.self
  snapshotThrough : s.sub.snapshotThrough = 0
  nodup : s.sub.pendingApplies.Nodup
  keys : ∀ a ∈ s.sent, ∀ b ∈ s.sent, ∀ k, S.keyOf a = some k → S.keyOf b = some k → a = b
  handled : ∀ env ∈ s.handled, env.sender = S.self → env ∈ s.sent
  own : ∀ (i : ℕ) (call : SubmitCall), s.calls[i]? = some call →
    call.env ∈ s.sent ∧ call.env.sender = S.self ∧ K.isApp call.env.payload = true
  numbers : ∀ (i j : ℕ) (a b : SubmitCall) (k : Key), s.calls[i]? = some a →
    s.calls[j]? = some b → S.keyOf a.env = some k → S.keyOf b.env = some k → i = j
  pending : ∀ k ∈ s.sub.pendingApplies, ∃ call, s.calls[s.waiter k]? = some call ∧
    S.keyOf call.env = some k ∧ Unsignalled s.handled call
  markers : ∀ k ∈ s.sub.appliedSelf, ∃ env ∈ s.sent, S.keyOf env = some k ∧ Ran K s env
  pump : PumpSound K S s s.pump
  closes : ∀ (i : ℕ) (call : SubmitCall), s.calls[i]? = some call →
    call.closes ≤ 1 ∧ (call.closes ≠ 0 → Ran K s call.env)
  attended : ∀ (i : ℕ) (call : SubmitCall), s.calls[i]? = some call →
    Attended K S s i call call.stage

theorem Invariant.keyOf_eq (h : Invariant K S s) (env : Envelope) :
    s.sub.keyOf env = S.keyOf env :=
  Substrate.keyOf_congr h.members

/-- A call may change, but it keeps its message. -/
theorem exists_getElem?_of_set {calls : List SubmitCall} {j : ℕ} {a b c : SubmitCall}
    (h : calls[i]? = some a) (henv : b.env = a.env) (hc : (calls.set i b)[j]? = some c) :
    ∃ c₀, calls[j]? = some c₀ ∧ c₀.env = c.env := by
  rcases getElem?_set_cases hc with ⟨rfl, rfl⟩ | ⟨-, hc⟩
  · exact ⟨a, h, henv.symm⟩
  · exact ⟨c, hc, rfl⟩

/-- The pump stays where it is while the rest moves on. -/
theorem PumpSound.imp {p : PumpStage} (h : PumpSound K S s p)
    (hran : ∀ env, Ran K s env → Ran K t env) (hsent : s.sent ⊆ t.sent)
    (hpending : ∀ k ∈ t.sub.pendingApplies, k ∈ s.sub.pendingApplies ∨
      ∀ env i, p = .closing env i → S.keyOf env ≠ some k)
    (hcalls : ∀ (i : ℕ) (c : SubmitCall), s.calls[i]? = some c → Unsignalled s.handled c →
      ∃ c', t.calls[i]? = some c' ∧ c'.env = c.env ∧ Unsignalled t.handled c') :
    PumpSound K S t p := by
  cases p with
  | idle => trivial
  | applied env k => exact ⟨h.1, hran env h.2.1, fun hself => hsent (h.2.2 hself)⟩
  | closing env i =>
    obtain ⟨hr, hpend, c, hc, henv, hun⟩ := h
    obtain ⟨c', hc', henv', hun'⟩ := hcalls i c hc hun
    refine ⟨hran env hr, fun k hk hmem => ?_, c', hc', henv'.trans henv, hun'⟩
    rcases hpending k hmem with hmem | hne
    · exact hpend k hk hmem
    · exact hne env i rfl hk

/-- A call stays at its stage while the rest moves on. -/
theorem Attended.imp {stage : SubmitStage} (h : Attended K S s i call stage)
    (hran : ∀ env, Ran K s env → Ran K t env)
    (hmark : stage = .sent → ∀ k ∈ S.keyOf call.env, call.env ∈ t.handled →
      (call.env ∈ s.handled → k ∈ s.sub.appliedSelf) → k ∈ t.sub.appliedSelf)
    (hwatched : ∀ k, stage = .waiting k → S.keyOf call.env = some k → Watched s i call k →
      Watched t i call k) : Attended K S t i call stage := by
  cases stage with
  | sent => exact ⟨h.1, fun k hk hin => hmark rfl k hk hin (h.2 k hk)⟩
  | waiting k => exact ⟨h.1, hwatched k rfl h.1 h.2⟩
  | cancelled k => exact h
  | returned err => exact fun hnone => hran _ (h hnone)

section Calls

variable (h : Invariant K S s) (hi : s.calls[i]? = some call)

include h hi

theorem Invariant.own_set {call' : SubmitCall} (henv : call'.env = call.env) (j : ℕ)
    (c : SubmitCall) (hc : (s.calls.set i call')[j]? = some c) :
    c.env ∈ s.sent ∧ c.env.sender = S.self ∧ K.isApp c.env.payload = true := by
  obtain ⟨c₀, hc₀, he⟩ := exists_getElem?_of_set hi henv hc
  exact he ▸ h.own j c₀ hc₀

theorem Invariant.numbers_set {call' : SubmitCall} (henv : call'.env = call.env) (j₁ j₂ : ℕ)
    (a b : SubmitCall) (k : Key) (ha : (s.calls.set i call')[j₁]? = some a)
    (hb : (s.calls.set i call')[j₂]? = some b) (hka : S.keyOf a.env = some k)
    (hkb : S.keyOf b.env = some k) : j₁ = j₂ := by
  obtain ⟨a₀, ha₀, hea⟩ := exists_getElem?_of_set hi henv ha
  obtain ⟨b₀, hb₀, heb⟩ := exists_getElem?_of_set hi henv hb
  exact h.numbers j₁ j₂ a₀ b₀ k ha₀ hb₀ (hea ▸ hka) (heb ▸ hkb)

/-- A call moves on without touching the substrate. -/
theorem Invariant.setStage (stage : SubmitStage) (hstage : stage ≠ .sent)
    (hatt : Attended K S s i call stage) : Invariant K S (s.setStage i call stage) := by
  have hmoved : ∀ (j : ℕ) (c : SubmitCall), s.calls[j]? = some c → Unsignalled s.handled c →
      ∃ c', (s.setStage i call stage).calls[j]? = some c' ∧ c'.env = c.env ∧
        Unsignalled s.handled c' := by
    intro j c hc hun
    by_cases hji : i = j
    · subst hji
      cases hi.symm.trans hc
      exact ⟨_, getElem?_set_of_some hi _, rfl, hun.closes, hun.notHandled, hstage⟩
    · exact ⟨c, (List.getElem?_set_ne hji).trans hc, rfl, hun.closes, hun.notHandled, hun.stage⟩
  refine { h with own := ?_, numbers := ?_, pending := ?_, pump := ?_, closes := ?_,
                  attended := ?_ }
  · exact h.own_set hi rfl
  · exact h.numbers_set hi rfl
  · intro k hk
    obtain ⟨c, hc, hkey, hun⟩ := h.pending k hk
    obtain ⟨c', hc', henv, hun'⟩ := hmoved _ c hc hun
    exact ⟨c', hc', henv ▸ hkey, hun'⟩
  · exact h.pump.imp (fun _ hr => hr) (List.Subset.refl _) (fun _ hk => Or.inl hk) hmoved
  · intro j c hc
    rcases getElem?_set_cases hc with ⟨rfl, rfl⟩ | ⟨-, hc⟩
    · exact h.closes j call hi
    · exact h.closes j c hc
  · intro j c hc
    rcases getElem?_set_cases hc with ⟨rfl, rfl⟩ | ⟨-, hc⟩
    · exact hatt
    · exact h.attended j c hc

/-- The pump closes the channel that it has in hand. -/
theorem Invariant.closeWaiter (hpump : s.pump = .closing call.env i) :
    Invariant K S { s with
      calls := s.calls.set i { call with closes := call.closes + 1 }
      pump := .idle } := by
  have hsound := h.pump
  rw [hpump] at hsound
  obtain ⟨hran, hpend, c₀, hc₀, -, hun⟩ := hsound
  cases hi.symm.trans hc₀
  refine { h with own := h.own_set hi rfl, numbers := h.numbers_set hi rfl, pending := ?_,
                  pump := trivial, closes := ?_, attended := ?_ }
  · intro k hk
    obtain ⟨c, hc, hkey, hunc⟩ := h.pending k hk
    refine ⟨c, (List.getElem?_set_ne ?_).trans hc, hkey, hunc⟩
    intro heq
    dsimp only at heq
    rw [← heq] at hc
    cases hi.symm.trans hc
    exact hpend k hkey hk
  · intro j c hc
    rcases getElem?_set_cases hc with ⟨rfl, rfl⟩ | ⟨-, hc⟩
    · refine ⟨?_, fun _ => hran⟩
      dsimp only
      rw [hun.closes]
    · exact h.closes j c hc
  · intro j c hc
    rcases getElem?_set_cases hc with ⟨rfl, rfl⟩ | ⟨hji, hc⟩
    · have hatt := h.attended j call hi
      have hstage := hun.stage
      dsimp only
      cases hst : call.stage with
      | sent => exact absurd hst hstage
      | waiting k =>
        rw [hst] at hatt
        exact ⟨hatt.1, Or.inr (Or.inr (Nat.succ_ne_zero _))⟩
      | cancelled _ | returned _ =>
        rw [hst] at hatt
        exact hatt
    · refine (h.attended j c hc).imp (fun _ hr => hr) (fun _ _ _ hin hmark => hmark hin)
        fun k _ _ hw => hw.imp_right fun hrest => Or.inr (hrest.resolve_left fun hcl => ?_)
      rw [hpump] at hcl
      injection hcl with _ hij
      exact hji hij.symm

end Calls

section Maps

variable (h : Invariant K S s)

include h

/-- A waiter is taken back on which no call waits. -/
theorem Invariant.cancelSubmit
    (hnone : ∀ (j : ℕ) (c : SubmitCall), s.calls[j]? = some c → c.stage ≠ .waiting k) :
    Invariant K S { s with sub := s.sub.cancelSubmit k } := by
  refine { h with nodup := h.nodup.erase k, pending := ?_, pump := ?_, attended := ?_ }
  · intro k' hk'
    exact h.pending k' (List.mem_of_mem_erase hk')
  · exact h.pump.imp (fun _ hr => hr) (List.Subset.refl _)
      (fun _ hk => Or.inl (List.mem_of_mem_erase hk)) fun j c hc hun => ⟨c, hc, rfl, hun⟩
  · intro j c hc
    refine (h.attended j c hc).imp (fun _ hr => hr) (fun _ _ _ hin hmark => hmark hin)
      fun k' hst _ hw => hw.imp_left fun hmem => ⟨(List.mem_erase_of_ne ?_).mpr hmem.1, hmem.2⟩
    rintro rfl
    exact hnone j c hc hst

/-- The marker of a message is consumed for which no call is to register. -/
theorem Invariant.consume (hk : k ∈ s.sub.appliedSelf)
    (hnone : ∀ (j : ℕ) (c : SubmitCall), s.calls[j]? = some c → c.stage = .sent →
      S.keyOf c.env ≠ some k) :
    Invariant K S { s with sub := s.sub.awaitSubmit k } := by
  rw [Substrate.awaitSubmit, if_pos hk]
  refine { h with markers := ?_, attended := ?_ }
  · intro k' hk'
    exact h.markers k' (List.mem_of_mem_erase hk')
  · intro j c hc
    refine (h.attended j c hc).imp (fun _ hr => hr) (fun hst k' hk' hin hmark => ?_)
      fun _ _ _ hw => hw
    refine (List.mem_erase_of_ne ?_).mpr (hmark hin)
    rintro rfl
    exact hnone j c hc hst hk'

/-- The waiter of a call that is past its `Send` is registered. -/
theorem Invariant.awaitSubmit (hk : k ∉ s.sub.appliedSelf) (hi : s.calls[i]? = some call)
    (hkey : S.keyOf call.env = some k) (hun : Unsignalled s.handled call)
    (hpump : ∀ env j, s.pump = .closing env j → S.keyOf env ≠ some k) :
    Invariant K S { s with
      sub := s.sub.awaitSubmit k
      waiter := Function.update s.waiter k i } := by
  rw [Substrate.awaitSubmit, if_neg hk]
  refine { h with nodup := h.nodup.insert, pending := ?_, pump := ?_, attended := ?_ }
  · intro k' hk'
    by_cases hne : k' = k
    · subst hne
      dsimp only
      rw [Function.update_self]
      exact ⟨call, hi, hkey, hun⟩
    · dsimp only
      rw [Function.update_of_ne hne]
      exact h.pending k' ((List.mem_insert_iff.mp hk').resolve_left hne)
  · refine h.pump.imp (fun _ hr => hr) (List.Subset.refl _) (fun k' hk' => ?_)
      fun j c hc hunc => ⟨c, hc, rfl, hunc⟩
    rcases List.mem_insert_iff.mp hk' with rfl | hk'
    · exact Or.inr hpump
    · exact Or.inl hk'
  · intro j c hc
    refine (h.attended j c hc).imp (fun _ hr => hr) (fun _ _ _ hin hmark => hmark hin)
      fun k' _ hk' hw => hw.imp_left fun hmem => ⟨List.mem_insert_of_mem hmem.1, ?_⟩
    dsimp only
    by_cases hne : k' = k
    · subst hne
      rw [Function.update_self]
      exact h.numbers i j call c k' hi hc hkey hk'
    · rw [Function.update_of_ne hne]
      exact hmem.2

/-- The pump leaves a marker for a call that is still to register. -/
theorem Invariant.mark (hmark : ∃ env ∈ s.sent, S.keyOf env = some k ∧ Ran K s env) :
    Invariant K S { s with
      sub := { s.sub with appliedSelf := s.sub.appliedSelf.insert k } } := by
  refine { h with markers := ?_, attended := ?_ }
  · intro k' hk'
    rcases List.mem_insert_iff.mp hk' with rfl | hk'
    · exact hmark
    · exact h.markers k' hk'
  · intro j c hc
    exact (h.attended j c hc).imp (fun _ hr => hr)
      (fun _ _ _ hin hold => List.mem_insert_of_mem (hold hin)) fun _ _ _ hw => hw

/-- The substrate moves on beside the waiters. -/
theorem Invariant.grow (hmembers : sub'.members = s.sub.members) (hself : sub'.self = s.sub.self)
    (hthrough : sub'.snapshotThrough = s.sub.snapshotThrough)
    (hpending : sub'.pendingApplies = s.sub.pendingApplies)
    (hmarkers : sub'.appliedSelf = s.sub.appliedSelf) (happlied : s.sub.applied ⊆ sub'.applied) :
    Invariant K S { s with sub := sub' } := by
  have hran : ∀ env, Ran K s env → Ran K { s with sub := sub' } env :=
    fun env ⟨payload, offset, hp, hmem⟩ => ⟨payload, offset, hp, happlied hmem⟩
  refine { h with members := hmembers.trans h.members, self := hself.trans h.self,
                  snapshotThrough := hthrough.trans h.snapshotThrough, nodup := ?_, pending := ?_,
                  markers := ?_, pump := ?_, closes := ?_, attended := ?_ }
  · exact hpending ▸ h.nodup
  · intro k hk
    exact h.pending k (hpending ▸ hk)
  · intro k hk
    obtain ⟨env, henv, hkey, hr⟩ := h.markers k (hmarkers ▸ hk)
    exact ⟨env, henv, hkey, hran env hr⟩
  · refine h.pump.imp hran (List.Subset.refl _) (fun k hk => Or.inl ?_)
      fun j c hc hun => ⟨c, hc, rfl, hun⟩
    exact hpending ▸ hk
  · intro j c hc
    exact ⟨(h.closes j c hc).1, fun hne => hran _ ((h.closes j c hc).2 hne)⟩
  · intro j c hc
    refine (h.attended j c hc).imp hran (fun _ k _ hin hmark => ?_)
      fun k _ _ hw => hw.imp_left fun hmem => ⟨?_, hmem.2⟩
    · exact hmarkers ▸ hmark hin
    · exact hpending ▸ hmem.1

/-- The pump goes to another stage, if it does not hold the channel of a waiting call. -/
theorem Invariant.setPump {p : PumpStage} (hfree : ∀ env i, s.pump ≠ .closing env i)
    (hp : PumpSound K S s p) : Invariant K S { s with pump := p } := by
  refine { h with pump := ?_, attended := ?_ }
  · exact hp.imp (fun _ hr => hr) (List.Subset.refl _) (fun _ hk => Or.inl hk)
      fun j c hc hun => ⟨c, hc, rfl, hun⟩
  · intro j c hc
    exact (h.attended j c hc).imp (fun _ hr => hr) (fun _ _ _ hin hmark => hmark hin)
      fun _ _ _ hw => hw.imp_right fun hrest => Or.inr (hrest.resolve_left (hfree _ _))

/-- `handleApplied` returns for a message that has no waiter, and whose call finds the
marker if it is still to register. -/
theorem Invariant.finish (hidle : s.pump = .idle) (hsent : env.sender = S.self → env ∈ s.sent)
    (hpending : K.isApp env.payload = true → ∀ k ∈ S.keyOf env, k ∉ s.sub.pendingApplies)
    (hmark : ∀ (j : ℕ) (c : SubmitCall), s.calls[j]? = some c → c.stage = .sent → c.env = env →
      ∀ k ∈ S.keyOf env, k ∈ s.sub.appliedSelf) : Invariant K S (s.finish env) := by
  refine { h with handled := ?_, pending := ?_, pump := trivial, attended := ?_ }
  · intro e he hself
    rcases List.mem_append.mp he with he | he
    · exact h.handled e he hself
    · cases List.mem_singleton.mp he
      exact hsent hself
  · intro k hk
    obtain ⟨c, hc, hkey, hun⟩ := h.pending k hk
    refine ⟨c, hc, hkey, hun.closes, fun hin => ?_, hun.stage⟩
    rcases List.mem_append.mp hin with hin | hin
    · exact hun.notHandled hin
    · have henv := List.mem_singleton.mp hin
      have happ := (h.own _ c hc).2.2
      rw [henv] at happ hkey
      exact hpending happ k hkey hk
  · intro j c hc
    refine (h.attended j c hc).imp (fun _ hr => hr) (fun hst k hk hin hold => ?_)
      fun k _ _ hw => hw.imp_right fun hrest => Or.inr (hrest.resolve_left fun hclosing => ?_)
    · rcases List.mem_append.mp hin with hin | hin
      · exact hold hin
      · have henv := List.mem_singleton.mp hin
        exact hmark j c hc hst henv k (henv ▸ hk)
    · rw [hidle] at hclosing
      cases hclosing

/-- The pump finds a waiter for the message that was applied. -/
theorem Invariant.signal (hpump : s.pump = .applied env k) (hk : k ∈ s.sub.pendingApplies) :
    Invariant K S { s with
      sub := s.sub.signalSubmit k
      pump := .closing env (s.waiter k) } := by
  rw [Substrate.signalSubmit, if_pos hk]
  have hsound := h.pump
  rw [hpump] at hsound
  obtain ⟨hkey, hran, hsent⟩ := hsound
  obtain ⟨call, hcall, hkeyc, hun⟩ := h.pending k hk
  have hself : env.sender = S.self := by
    rw [← Substrate.sender_of_keyOf hkey, Substrate.sender_of_keyOf hkeyc]
    exact (h.own _ call hcall).2.1
  have henv : call.env = env := h.keys _ (h.own _ call hcall).1 _ (hsent hself) k hkeyc hkey
  refine { h with nodup := h.nodup.erase k, pending := ?_, pump := ?_, attended := ?_ }
  · intro k' hk'
    exact h.pending k' (List.mem_of_mem_erase hk')
  · refine ⟨hran, fun k' hk' hmem => ?_, call, hcall, henv, hun⟩
    cases hkey.symm.trans hk'
    exact ((List.Nodup.mem_erase_iff h.nodup).mp hmem).1 rfl
  · intro j c hc
    refine (h.attended j c hc).imp (fun _ hr => hr) (fun _ _ _ hin hmark => hmark hin) ?_
    rintro k' - - (⟨hmem, hw⟩ | hclosing | hclosed)
    · by_cases hne : k' = k
      · subst hne
        subst hw
        cases hcall.symm.trans hc
        exact Or.inr (Or.inl (by rw [henv]))
      · exact Or.inl ⟨(List.mem_erase_of_ne hne).mpr hmem, hw⟩
    · rw [hpump] at hclosing
      cases hclosing
    · exact Or.inr (Or.inr hclosed)

/-- An own message with a new number is sent. -/
theorem Invariant.send (hfresh : Fresh s env) :
    Invariant K S { s with sent := s.sent ++ [env] } := by
  have hold := List.subset_append_left s.sent [env]
  have hnew : ∀ e ∈ s.sent, ∀ k, S.keyOf env = some k → S.keyOf e ≠ some k := by
    intro e he k hk
    have hne := hfresh.2 e he k (by rw [h.keyOf_eq]; exact hk)
    rwa [h.keyOf_eq] at hne
  refine { h with keys := ?_, handled := ?_, own := ?_, markers := ?_, pump := ?_ }
  · intro a ha b hb k hka hkb
    rcases List.mem_append.mp ha with ha | ha <;> rcases List.mem_append.mp hb with hb | hb
    · exact h.keys a ha b hb k hka hkb
    · cases List.mem_singleton.mp hb
      exact absurd hka (hnew a ha k hkb)
    · cases List.mem_singleton.mp ha
      exact absurd hkb (hnew b hb k hka)
    · rw [List.mem_singleton.mp ha, List.mem_singleton.mp hb]
  · intro e he hself
    exact hold (h.handled e he hself)
  · intro j c hc
    obtain ⟨hc₁, hc₂⟩ := h.own j c hc
    exact ⟨hold hc₁, hc₂⟩
  · intro k hk
    obtain ⟨e, he, hr⟩ := h.markers k hk
    exact ⟨e, hold he, hr⟩
  · exact h.pump.imp (fun _ hr => hr) hold (fun _ hk => Or.inl hk)
      fun j c hc hun => ⟨c, hc, rfl, hun⟩

/-- A call comes back from the `Send` of a message that no other call has sent. -/
theorem Invariant.submit (hsent : env ∈ s.sent) (hself : env.sender = S.self)
    (happ : K.isApp env.payload = true)
    (hnew : ∀ k, S.keyOf env = some k → env ∉ s.handled ∧
      ∀ (j : ℕ) (c : SubmitCall), s.calls[j]? = some c → S.keyOf c.env ≠ some k) :
    Invariant K S { s with calls := s.calls ++ [⟨env, .sent, 0⟩] } := by
  have hgrown : ∀ (j : ℕ) (c : SubmitCall), s.calls[j]? = some c →
      (s.calls ++ [⟨env, .sent, 0⟩])[j]? = some c := fun j c hc => by
    rw [List.getElem?_append_left (List.getElem?_eq_some_iff.mp hc).1, hc]
  refine { h with own := ?_, numbers := ?_, pending := ?_, pump := ?_, closes := ?_,
                  attended := ?_ }
  · intro j c hc
    rcases getElem?_concat_cases hc with hc | ⟨-, rfl⟩
    · exact h.own j c hc
    · exact ⟨hsent, hself, happ⟩
  · intro j₁ j₂ a b k ha hb hka hkb
    rcases getElem?_concat_cases ha with ha' | ⟨hj₁, rfl⟩ <;>
      rcases getElem?_concat_cases hb with hb' | ⟨hj₂, rfl⟩
    · exact h.numbers j₁ j₂ a b k ha' hb' hka hkb
    · exact absurd hka ((hnew k hkb).2 j₁ a ha')
    · exact absurd hkb ((hnew k hka).2 j₂ b hb')
    · rw [hj₁, hj₂]
  · intro k hk
    obtain ⟨c, hc, hkey, hun⟩ := h.pending k hk
    exact ⟨c, hgrown _ c hc, hkey, hun⟩
  · exact h.pump.imp (fun _ hr => hr) (List.Subset.refl _) (fun _ hk => Or.inl hk)
      fun j c hc hun => ⟨c, hgrown j c hc, rfl, hun⟩
  · intro j c hc
    rcases getElem?_concat_cases hc with hc | ⟨-, rfl⟩
    · exact h.closes j c hc
    · exact ⟨Nat.zero_le _, fun hne => absurd rfl hne⟩
  · intro j c hc
    rcases getElem?_concat_cases hc with hc | ⟨-, rfl⟩
    · exact h.attended j c hc
    · exact ⟨rfl, fun k hk hin => absurd hin (hnew k hk).1⟩

end Maps

section Steps

variable (h : Invariant K S s)

include h

/-- Two calls do not have one number. -/
theorem Invariant.key_ne {j : ℕ} {c : SubmitCall} (hi : s.calls[i]? = some call)
    (hkey : S.keyOf call.env = some k) (hc : s.calls[j]? = some c) (hne : j ≠ i) :
    S.keyOf c.env ≠ some k :=
  fun hkc => hne (h.numbers j i c call k hc hi hkc hkey)

theorem Invariant.step_submit {id : MessageID} {payload : List UInt8}
    (hok : Genuine K s (.submit id payload)) (hs : step K s (.submit id payload) = some t) :
    Invariant K S t := by
  cases hs
  set env : Envelope := ⟨id, K.marshal (.app payload)⟩
  have hself : env.sender = S.self := hok.1.trans h.self
  have hnew : ∀ e ∈ s.sent, ∀ k, S.keyOf env = some k → S.keyOf e ≠ some k := by
    intro e he k hk
    have hne := hok.2 e he k (by rw [h.keyOf_eq]; exact hk)
    rwa [h.keyOf_eq] at hne
  refine (h.send hok).submit (List.mem_append_right _ (List.mem_singleton_self _)) hself
    (Substrate.isApp_iff.mpr ⟨payload, K.unmarshal_marshal _⟩) fun k hk => ⟨fun hin => ?_, ?_⟩
  · exact hnew env (h.handled env hin hself) k hk hk
  · intro j c hc
    exact hnew c.env (h.own j c hc).1 k hk

theorem Invariant.register (hi : s.calls[i]? = some call) (hst : call.stage = .sent) :
    Invariant K S (s.register i call) := by
  have hatt := h.attended i call hi
  rw [hst] at hatt
  unfold SubmitRun.register
  rw [h.keyOf_eq]
  cases hkey : S.keyOf call.env with
  | none => exact h.setStage hi _ (by simp) nofun
  | some k =>
    dsimp only
    split
    · exact h.setStage hi _ (by simp) nofun
    · split
      · rename_i hmark
        obtain ⟨env, henv, hke, hran⟩ := h.markers k hmark
        have heq : env = call.env := h.keys env henv _ (h.own i call hi).1 k hke hkey
        have hret : Attended K S s i call (.returned none) := fun _ => heq ▸ hran
        refine (h.setStage hi _ (by simp) hret).consume hmark ?_
        intro j c hc hstc
        rcases getElem?_set_cases hc with ⟨-, rfl⟩ | ⟨hji, hc⟩
        · cases hstc
        · exact h.key_ne hi hkey hc hji
      · rename_i hmark
        have hun : call.env ∉ s.handled := fun hin => hmark (hatt.2 k hkey hin)
        have hpump : ∀ env j, s.pump = .closing env j → S.keyOf env ≠ some k := by
          intro env j hp hke
          have hsound := h.pump
          rw [hp] at hsound
          obtain ⟨-, -, c, hc, rfl, hunc⟩ := hsound
          cases h.numbers j i c call k hc hi hke hkey
          cases hc.symm.trans hi
          exact hunc.stage hst
        have hset := getElem?_set_of_some hi { call with stage := .cancelled k }
        have hreg := (h.setStage hi (.cancelled k) (by simp) hkey).awaitSubmit hmark hset hkey
          ⟨hatt.1, hun, by simp⟩ hpump
        have hmem : k ∈ (s.sub.awaitSubmit k).pendingApplies := by
          rw [Substrate.awaitSubmit, if_neg hmark]
          exact List.mem_insert_self
        have hwait := hreg.setStage hset (.waiting k) (by simp)
          ⟨hkey, Or.inl ⟨hmem, Function.update_self _ _ _⟩⟩
        simpa only [SubmitRun.setStage, List.set_set] using hwait

theorem Invariant.withdraw (hi : s.calls[i]? = some call) (hst : call.stage = .cancelled k) :
    Invariant K S { s.setStage i call (.returned (some .contextDone)) with
      sub := s.sub.cancelSubmit k } := by
  have hatt := h.attended i call hi
  rw [hst] at hatt
  refine (h.setStage hi (.returned (some .contextDone)) (by simp) nofun).cancelSubmit ?_
  intro j c hc hstc
  rcases getElem?_set_cases hc with ⟨-, rfl⟩ | ⟨hji, hc⟩
  · cases hstc
  · have hattc := h.attended j c hc
    rw [hstc] at hattc
    exact h.key_ne hi hatt hc hji hattc.1

theorem Invariant.step_apply {log : MessageLog} (hok : Genuine K s (.apply log env))
    (hs : step K s (.apply log env) = some t) : Invariant K S t := by
  have hsent : env.sender = S.self → env ∈ s.sent := fun hself => hok (hself.trans h.self.symm)
  obtain ⟨hidle, ⟨payload, k, hp, hk, rfl⟩ | ⟨hignored, rfl⟩⟩ := SubmitRun.step_apply hs
  · have heq := noteApplied_eq s.sub
      ⟨env.id, payload, env.sender, Substrate.localOffset log k, env.wave⟩ k
    have hcovered : ¬s.sub.Covered (Substrate.localOffset log k) := by
      rintro ⟨hne, hle⟩
      rw [h.snapshotThrough] at hle
      exact hne (Nat.le_zero.mp hle)
    dsimp only at heq
    rw [if_neg hcovered] at heq
    generalize s.sub.noteApplied _ k = sub at heq ⊢
    have hgrown : Invariant K S { s with sub := sub } := by
      rw [heq]
      exact h.grow rfl rfl rfl rfl rfl (List.subset_append_left _ _)
    refine hgrown.setPump ?_ ?_
    · intro env j hp
      rw [hidle] at hp
      cases hp
    · refine ⟨h.keyOf_eq env ▸ hk, ⟨payload, Substrate.localOffset log k, hp, ?_⟩, hsent⟩
      rw [heq]
      exact List.mem_append_right _ (List.mem_singleton_self _)
  · rw [h.keyOf_eq] at hignored
    rw [handleApplied_ignored (by rwa [h.keyOf_eq])]
    refine Invariant.finish (h.grow rfl rfl rfl rfl rfl (List.Subset.refl _)) hidle hsent ?_ ?_
    · intro happ k hk
      rw [hignored happ] at hk
      cases hk
    · rintro j c hc - rfl k hk
      rw [hignored (h.own j c hc).2.2] at hk
      cases hk

theorem Invariant.step_signal (hpump : s.pump = .applied env k) :
    Invariant K S (s.signal env k) := by
  have hsound := h.pump
  rw [hpump] at hsound
  obtain ⟨hkey, hran, hsent⟩ := hsound
  unfold SubmitRun.signal
  dsimp only
  split
  · rename_i hk
    exact h.signal hpump hk
  · rename_i hk
    have hidle : Invariant K S { s with pump := .idle } := by
      refine h.setPump ?_ trivial
      intro env j hp
      rw [hpump] at hp
      cases hp
    have hpending : K.isApp env.payload = true → ∀ k' ∈ S.keyOf env, k' ∉ s.sub.pendingApplies := by
      intro _ k' hk'
      cases hkey.symm.trans hk'
      exact hk
    rw [Substrate.signalSubmit, if_neg hk]
    split
    · rename_i hself
      have henv := hsent ((Substrate.sender_of_keyOf hkey).symm.trans (hself.trans h.self))
      refine (hidle.mark ⟨env, henv, hkey, hran⟩).finish rfl hsent hpending ?_
      rintro j c - - - k' hk'
      cases hkey.symm.trans hk'
      exact List.mem_insert_self
    · rename_i hself
      refine hidle.finish rfl hsent hpending ?_
      rintro j c hc - rfl k' -
      rw [Substrate.sender_of_keyOf hkey, h.self] at hself
      exact absurd (h.own j c hc).2.1 hself

theorem Invariant.step_closeWaiter (hpump : s.pump = .closing env i)
    (hi : s.calls[i]? = some call) : Invariant K S
      ({ s with calls := s.calls.set i { call with closes := call.closes + 1 } }.finish env) := by
  have hsound := h.pump
  rw [hpump] at hsound
  obtain ⟨-, hpend, c₀, hc₀, rfl, hun⟩ := hsound
  cases hi.symm.trans hc₀
  refine (h.closeWaiter hi hpump).finish rfl (fun _ => (h.own i call hi).1) (fun _ => hpend) ?_
  intro j c hc hst henv k hk
  rcases getElem?_set_cases hc with ⟨-, rfl⟩ | ⟨hji, hc⟩
  · exact absurd hst hun.stage
  · exact absurd (henv ▸ hk) (h.key_ne hi hk hc hji)

theorem Invariant.step {a : SubmitAction} (hok : Genuine K s a) (hs : step K s a = some t) :
    Invariant K S t := by
  cases a with
  | submit id payload => exact h.step_submit hok hs
  | sendOther env =>
    cases hs
    exact h.send hok
  | apply log env => exact h.step_apply hok hs
  | signal =>
    unfold SubmitRun.step at hs
    dsimp only at hs
    split at hs
    · rename_i hpump
      cases hs
      exact h.step_signal hpump
    · cases hs
  | closeWaiter =>
    unfold SubmitRun.step at hs
    dsimp only at hs
    split at hs
    · rename_i hpump
      obtain ⟨call, hi, rfl⟩ := Option.map_eq_some_iff.mp hs
      exact h.step_closeWaiter hpump hi
    · cases hs
  | close =>
    cases hs
    exact { h with }
  | closeStopped =>
    unfold SubmitRun.step at hs
    dsimp only at hs
    split at hs
    · cases hs
      exact { h with }
    · cases hs
  | register i =>
    obtain ⟨call, hi, hs⟩ := Option.bind_eq_some_iff.mp hs
    split at hs
    · rename_i hst
      cases hs
      exact h.register hi hst
    · cases hs
  | receive i =>
    obtain ⟨call, hi, hs⟩ := Option.bind_eq_some_iff.mp hs
    split at hs
    · split at hs
      · cases hs
      · rename_i hcloses
        cases hs
        exact h.setStage hi _ (by simp) fun _ => (h.closes i call hi).2 hcloses
    · cases hs
  | cancel i =>
    obtain ⟨call, hi, hs⟩ := Option.bind_eq_some_iff.mp hs
    have hatt := h.attended i call hi
    split at hs
    · rename_i k hst
      rw [hst] at hatt
      cases hs
      exact h.setStage hi _ (by simp) hatt.1
    · cases hs
  | withdraw i =>
    obtain ⟨call, hi, hs⟩ := Option.bind_eq_some_iff.mp hs
    split at hs
    · rename_i k hst
      cases hs
      exact h.withdraw hi hst
    · cases hs
  | stop i =>
    obtain ⟨call, hi, hs⟩ := Option.bind_eq_some_iff.mp hs
    split at hs
    · split at hs
      · cases hs
        exact h.setStage hi _ (by simp) nofun
      · cases hs
    · cases hs

end Steps

theorem invariant_start {members : List ReplicaID} {self : ReplicaID} :
    Invariant K (.new members self 0) (start (.new members self 0)) where
  members := rfl
  self := rfl
  snapshotThrough := rfl
  nodup := List.nodup_nil
  keys _ ha := nomatch ha
  handled _ he := nomatch he
  own _ _ hc := nomatch hc
  numbers _ _ _ _ _ ha := nomatch ha
  pending _ hk := nomatch hk
  markers _ hk := nomatch hk
  pump := trivial
  closes _ _ hc := nomatch hc
  attended _ _ hc := nomatch hc

/-- In every interleaving of `Submit` calls with the apply pump, on a substrate without an
initial snapshot whose own numbers are distinct: a call that returned without an error has
its message applied, a waiting call whose message was handled can return at once, and no
channel was closed twice. -/
theorem submit_wakes_once {members : List ReplicaID} {self : ReplicaID}
    (hr : Reach (SubmitRun.step K) (Genuine K) (start (.new members self 0)) s)
    (hi : s.calls[i]? = some call) :
    (call.stage = .returned none → Ran K s call.env) ∧
    (call.env ∈ s.handled → ∀ k, call.stage = .waiting k →
      SubmitRun.step K s (.receive i) = some (s.setStage i call (.returned none))) ∧
    call.closes ≤ 1 := by
  have h := hr.invariant (P := Invariant K (.new members self 0)) invariant_start
    fun _ _ _ h hok hs => h.step hok hs
  have hatt := h.attended i call hi
  refine ⟨fun hst => ?_, fun hin k hst => ?_, (h.closes i call hi).1⟩
  · rw [hst] at hatt
    exact hatt rfl
  · rw [hst] at hatt
    have hcloses : call.closes ≠ 0 := by
      rcases hatt.2 with ⟨hmem, hw⟩ | hclosing | hclosed
      · obtain ⟨c, hc, -, hun⟩ := h.pending k hmem
        rw [hw] at hc
        cases hi.symm.trans hc
        exact absurd hin hun.notHandled
      · have hsound := h.pump
        rw [hclosing] at hsound
        obtain ⟨-, -, c, hc, -, hun⟩ := hsound
        cases hi.symm.trans hc
        exact absurd hin hun.notHandled
      · exact hclosed
    unfold SubmitRun.step
    simp [hi, hst, hcloses]

/-- The `n`-th message of the first of two members. -/
def numbered (n : ℕ) : MessageID := ⟨some [0], some [1], [n, 0]⟩

/-- The message of the first call is applied before the call registers, that of the second
call after it. -/
def race : List SubmitAction :=
  [.submit (numbered 1) [7], .submit (numbered 2) [8], .apply .empty ⟨numbered 1, [1, 7]⟩, .signal,
   .register 0, .register 1, .apply .empty ⟨numbered 2, [1, 8]⟩, .signal, .closeWaiter]

theorem submit_wakes_once_race : ∃ s,
    execute (SubmitRun.step .tagged) (Genuine .tagged) (start (.new [[1], [2]] [1] 0)) race =
      some s ∧
    (⟨⟨numbered 1, [1, 7]⟩, .returned none, 0⟩ : SubmitCall) ∈ s.calls ∧
    Ran .tagged s ⟨numbered 1, [1, 7]⟩ ∧
    SubmitRun.step .tagged s (.receive 1) =
      some (s.setStage 1 ⟨⟨numbered 2, [1, 8]⟩, .waiting ⟨[1], 2⟩, 1⟩ (.returned none)) := by
  have hrun : (execute (SubmitRun.step .tagged) (Genuine .tagged)
      (start (.new [[1], [2]] [1] 0)) race).map (fun s => decide (
        s.calls = [⟨⟨numbered 1, [1, 7]⟩, .returned none, 0⟩,
          ⟨⟨numbered 2, [1, 8]⟩, .waiting ⟨[1], 2⟩, 1⟩] ∧
        ⟨numbered 2, [1, 8]⟩ ∈ s.handled)) = some true := by decide +kernel
  obtain ⟨s, hs, hr, hp⟩ := reach_of_execute hrun
  obtain ⟨hcalls, hin⟩ := of_decide_eq_true hp
  have hfirst : s.calls[0]? = some ⟨⟨numbered 1, [1, 7]⟩, .returned none, 0⟩ := by
    rw [hcalls]
    rfl
  have hsecond : s.calls[1]? = some ⟨⟨numbered 2, [1, 8]⟩, .waiting ⟨[1], 2⟩, 1⟩ := by
    rw [hcalls]
    rfl
  exact ⟨s, hs, List.mem_of_getElem? hfirst, (submit_wakes_once hr hfirst).1 rfl,
    (submit_wakes_once hr hsecond).2.1 hin _ rfl⟩

end Comlink.SubmitRun
