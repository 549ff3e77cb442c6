import Comlink.VoteInOutcomes

/-!
# The sections of VoteIn, taken together

`Manager` treats every handler of `VoteIn` as one step and keeps the session of a target in
its table. Run without interruption, the sections of `VoteInManager` do the same: each
handler leads from a state that represents a manager to one that represents what the
handler makes of it.
-/
namespace Comlink.VoteInManager

/-- The session that the table has for a target. -/
def session (m : VoteInManager) (target : ReplicaID) : Option VoteInSession :=
  (m.voteInSessions target).bind fun n => m.calls[n]?.map VoteInCall.session

/-- The table and the calls stand for the table of sessions of a manager. -/
structure Represents (m : VoteInManager) (M : Manager) : Prop where
  self : M.self = m.self
  size : M.initialGroupSize = m.initialGroupSize
  list : M.membershipList = m.membershipList
  targets : ∀ target n, m.voteInSessions target = some n →
    ∃ c, m.calls[n]? = some c ∧ c.target = target
  sessions : ∀ target, M.voteInSessions.lookup target = m.session target

variable {m m' : VoteInManager} {M : Manager} {n : ℕ} {c : VoteInCall}
variable {target sender : ReplicaID}

theorem represents_new (self : ReplicaID) (members : List ReplicaID) (initialGroupSize : ℕ) :
    Represents (new self members initialGroupSize) (.new self members initialGroupSize) where
  self := rfl
  size := rfl
  list := rfl
  targets _ _ h := nomatch h
  sessions _ := rfl

theorem session_eq (hn : m.voteInSessions target = some n) (hc : m.calls[n]? = some c) :
    m.session target = some c.session := by
  rw [session, hn, Option.bind_some, hc]
  rfl

/-- Targets do not share a session. -/
theorem Represents.number_ne (h : Represents m M) {other : ReplicaID} {k : ℕ}
    (hn : m.voteInSessions target = some n) (hk : m.voteInSessions other = some k)
    (hne : other ≠ target) : n ≠ k := by
  rintro rfl
  obtain ⟨c, hc, rfl⟩ := h.targets target n hn
  obtain ⟨c', hc', rfl⟩ := h.targets other n hk
  cases hc.symm.trans hc'
  exact hne rfl

theorem Represents.session_modify (h : Represents m M) (hn : m.voteInSessions target = some n)
    {other : ReplicaID} (hne : other ≠ target) (f : VoteInCall → VoteInCall) :
    session { m with calls := m.calls.modify n f } other = m.session other := by
  unfold session
  dsimp only
  cases hk : m.voteInSessions other with
  | none => rfl
  | some k => simp [h.number_ne hn hk hne]

theorem Represents.targets_modify (h : Represents m M) {f : VoteInCall → VoteInCall}
    (hf : ∀ c, (f c).target = c.target) (other : ReplicaID) (k : ℕ)
    (hk : m.voteInSessions other = some k) :
    ∃ c, (m.calls.modify n f)[k]? = some c ∧ c.target = other := by
  obtain ⟨c, hc, htarget⟩ := h.targets other k hk
  rw [List.getElem?_modify, hc]
  by_cases hnk : n = k
  · exact ⟨f c, by simp [hnk], (hf c).trans htarget⟩
  · exact ⟨c, by simp [hnk], htarget⟩

/-- A session in the table changes. -/
theorem Represents.modify (h : Represents m M) (hn : m.voteInSessions target = some n)
    (hc : m.calls[n]? = some c) {f : VoteInCall → VoteInCall} (hf : ∀ c, (f c).target = c.target) :
    Represents { m with calls := m.calls.modify n f } (M.putVoteIn target (f c).session) := by
  refine ⟨h.self, h.size, h.list, h.targets_modify hf, fun other => ?_⟩
  by_cases hne : other = target
  · subst hne
    have hsession : session { m with calls := m.calls.modify n f } other = some (f c).session :=
      session_eq hn (by simp [hc])
    rw [hsession]
    exact AList.lookup_insert _
  · rw [h.session_modify hn hne, ← h.sessions other]
    exact AList.lookup_insert_ne hne

/-- What is not kept in the table does not matter. -/
theorem Represents.congr (h : Represents m M) (hself : m'.self = m.self)
    (hsize : m'.initialGroupSize = m.initialGroupSize)
    (hlist : m'.membershipList = m.membershipList)
    (htable : m'.voteInSessions = m.voteInSessions) (hcalls : m'.calls = m.calls) :
    Represents m' M := by
  refine ⟨h.self.trans hself.symm, h.size.trans hsize.symm, h.list.trans hlist.symm, ?_, ?_⟩
  · rw [htable, hcalls]
    exact h.targets
  · intro other
    rw [session, htable, hcalls]
    exact h.sessions other

theorem Represents.asyncSend (h : Represents m M) (frame : VoteFrame) :
    Represents m (M.asyncSend frame) := ⟨h.self, h.size, h.list, h.targets, h.sessions⟩

theorem Represents.lookup (h : Represents m M) (hn : m.voteInSessions target = some n)
    (hc : m.calls[n]? = some c) : M.voteInSessions.lookup target = some c.session :=
  (h.sessions target).trans (session_eq hn hc)

theorem Represents.lookup_none (h : Represents m M) (hn : m.voteInSessions target = none) :
    M.voteInSessions.lookup target = none := by
  rw [h.sessions, session, hn]
  rfl

/-- A session leaves the table. -/
theorem Represents.erase (h : Represents m M) (f : VoteInCall → VoteInCall)
    (hf : ∀ c, (f c).target = c.target) (hn : m.voteInSessions target = some n)
    (other : ReplicaID) :
    (∀ k, Function.update m.voteInSessions target none other = some k →
      ∃ c, (m.calls.modify n f)[k]? = some c ∧ c.target = other) ∧
    (M.voteInSessions.erase target).lookup other = session { m with
      voteInSessions := Function.update m.voteInSessions target none
      calls := m.calls.modify n f } other := by
  by_cases hne : other = target
  · subst hne
    refine ⟨fun k hk => ?_, ?_⟩
    · rw [Function.update_self] at hk
      cases hk
    · rw [AList.lookup_erase, session]
      simp
  · rw [Function.update_of_ne hne]
    refine ⟨h.targets_modify hf other, ?_⟩
    rw [AList.lookup_erase_ne hne, h.sessions, ← h.session_modify hn hne f, session, session]
    simp [hne]

theorem Represents.cancelVoteInSession (h : Represents m M) (target : ReplicaID) (err : VoteError) :
    Represents (m.cancelVoteInSession target err) (M.cancelVoteInSession target err) := by
  unfold VoteInManager.cancelVoteInSession Manager.cancelVoteInSession
  cases hn : m.voteInSessions target with
  | none =>
    rw [h.lookup_none hn]
    exact h
  | some n =>
    obtain ⟨c, hc, -⟩ := h.targets target n hn
    rw [h.lookup hn hc]
    have hleft := h.erase (fun c => c.complete (some err)) (fun _ => rfl) hn
    exact ⟨h.self, h.size, h.list, fun other => (hleft other).1, fun other => (hleft other).2⟩

theorem Represents.handleMemberAdd (h : Represents m M) (target : ReplicaID) (addr : String) :
    Represents (m.handleMemberAdd target) (M.handleMemberAdd target addr) := by
  unfold VoteInManager.handleMemberAdd Manager.handleMemberAdd
  rw [h.self]
  split
  · exact h
  · unfold VoteInManager.applyMemberAdd Manager.applyMemberAdd
    have hmember : M.isMember target = m.isMember target := by
      rw [Manager.isMember, h.list, isMember]
    rw [hmember]
    split
    · exact h
    · have hlist : M.membershipList ++ [target] = m.membershipList ++ [target] := by rw [h.list]
      cases hn : m.voteInSessions target with
      | none =>
        have hsame : Function.update m.voteInSessions target none = m.voteInSessions := by
          rw [← hn, Function.update_eq_self]
        refine ⟨h.self, h.size, hlist, ?_, fun other => ?_⟩
        · dsimp only
          rw [hsame]
          exact h.targets
        · rw [session]
          dsimp only
          rw [hsame]
          by_cases hne : other = target
          · subst hne
            rw [AList.lookup_erase, hn]
            rfl
          · rw [AList.lookup_erase_ne hne]
            exact h.sessions other
      | some n =>
        have hleft := h.erase (fun c => c.complete none) (fun _ => rfl) hn
        exact ⟨h.self, h.size, hlist, fun other => (hleft other).1, fun other => (hleft other).2⟩

/-- A session enters the table. -/
theorem Represents.insert (h : Represents m M) (c : VoteInCall) :
    Represents { m with
      voteInSessions := Function.update m.voteInSessions c.target (some m.calls.length)
      calls := m.calls ++ [c] } (M.putVoteIn c.target c.session) := by
  have hold : ∀ k c', m.calls[k]? = some c' → (m.calls ++ [c])[k]? = some c' := fun k c' hk =>
    (List.getElem?_append_left (List.getElem?_eq_some_iff.mp hk).1).trans hk
  refine ⟨h.self, h.size, h.list, fun other k hk => ?_, fun other => ?_⟩
  · dsimp only at hk
    by_cases hne : other = c.target
    · subst hne
      rw [Function.update_self] at hk
      cases hk
      exact ⟨c, List.getElem?_concat_length, rfl⟩
    · rw [Function.update_of_ne hne] at hk
      obtain ⟨c', hc', htarget⟩ := h.targets other k hk
      exact ⟨c', hold k c' hc', htarget⟩
  · by_cases hne : other = c.target
    · subst hne
      rw [Manager.putVoteIn, AList.lookup_insert]
      exact (session_eq (Function.update_self _ _ _) List.getElem?_concat_length).symm
    · rw [Manager.putVoteIn, AList.lookup_insert_ne hne, h.sessions, session, session]
      dsimp only
      rw [Function.update_of_ne hne]
      cases hk : m.voteInSessions other with
      | none => rfl
      | some k =>
        obtain ⟨c', hc', -⟩ := h.targets other k hk
        rw [Option.bind_some, Option.bind_some, hc', hold k c' hc']

theorem Represents.voteIn (h : Represents m M) {addr : String}
    (hm : m.voteIn target addr = .ok m') :
    ∃ M', M.voteIn target addr = .ok M' ∧ Represents m' M' := by
  have hmember : M.isMember target = m.isMember target := by rw [Manager.isMember, h.list, isMember]
  have hmajority : M.inMajority = m.inMajority := by
    rw [Manager.inMajority, h.list, h.size, inMajority]
  unfold VoteInManager.voteIn at hm
  unfold Manager.voteIn
  rw [h.self, hmember, hmajority]
  split at hm
  · cases hm
  split at hm
  · cases hm
  split at hm
  · cases hm
  rename_i hself hnew hmaj
  rw [if_neg hself, if_neg hnew, if_neg hmaj]
  split at hm
  · cases hm
  · rename_i hn
    cases hm
    rw [h.lookup_none hn]
    refine ⟨_, rfl, Represents.asyncSend ?_ _⟩
    rw [h.list]
    exact h.insert ⟨target, ⟨addr, m.membershipList, [m.self], [], false⟩, none, .broadcasting⟩

/-- The sections of the pump in a row. -/
def PumpRun : VoteInManager → VoteInManager → Prop :=
  Relation.ReflTransGen fun m m' => m.pumpNext = some m'

/-- The handler of an Ack or a Nack. -/
def answer (M : Manager) (sender target : ReplicaID) (nack : Bool) : Manager :=
  if nack then M.handleVoteInNack sender target else M.handleVoteInAck sender target

theorem answer_eq {s : VoteInSession} (hs : M.voteInSessions.lookup target = some s)
    (nack : Bool) : answer M sender target nack =
      (M.putVoteIn target (s.tally sender nack)).checkVoteInDecision target := by
  cases nack <;> simp [answer, Manager.handleVoteInNack, Manager.handleVoteInAck, hs,
    VoteInSession.tally]

theorem commits_iff (s : VoteInSession) (hnack : s.nackedBy = []) :
    s.commits = true ↔ ¬s.committed = true ∧ ¬s.ackedBy.length < s.needed := by
  simp [VoteInSession.commits, hnack]

theorem pumpNext_check {m' : VoteInManager} (hp : m.pump = .check n)
    (hdecision : m.checkVoteInDecision n = (m', none)) :
    m.pumpNext = some { m' with pump := .idle } := by
  simp only [pumpNext, hp, hdecision]

theorem pumpNext_check_nacked {m' : VoteInManager} (hp : m.pump = .check n)
    (hdecision : m.checkVoteInDecision n = (m', some target)) :
    m.pumpNext = some { m' with pump := .cancel target } := by
  simp only [pumpNext, hp, hdecision]

/-- The last sections of the pump, from the tally on. -/
theorem Represents.checkVoteInDecision (h : Represents m M) (hn : m.voteInSessions target = some n)
    (hc : m.calls[n]? = some c) (hp : m.pump = .check n) :
    ∃ m', PumpRun m m' ∧ m'.pump = .idle ∧ Represents m' (M.checkVoteInDecision target) := by
  obtain ⟨c', hc', rfl⟩ := h.targets target n hn
  cases hc.symm.trans hc'
  unfold Manager.checkVoteInDecision
  rw [h.lookup hn hc]
  dsimp only
  have hdecision : m.checkVoteInDecision n =
      if c.session.nackedBy ≠ [] then (m, some c.target)
      else if c.session.commits then
        ({ m with calls := m.calls.modify n VoteInCall.commit, adds := m.adds ++ [n] }, none)
      else (m, none) := by
    simp only [VoteInManager.checkVoteInDecision, hc]
  by_cases hnack : c.session.nackedBy ≠ []
  · rw [if_pos hnack] at hdecision ⊢
    have hpump : Represents { m with pump := .cancel c.target } M := h.congr rfl rfl rfl rfl rfl
    have hcancel := hpump.cancelVoteInSession c.target .nacked
    exact ⟨_, .tail (.single (pumpNext_check_nacked hp hdecision)) rfl, rfl,
      Represents.congr hcancel rfl rfl rfl rfl rfl⟩
  · rw [if_neg hnack] at hdecision ⊢
    have hcommits := commits_iff c.session (not_not.mp hnack)
    by_cases hcom : c.session.commits = true
    · rw [if_pos hcom] at hdecision
      obtain ⟨hfirst, henough⟩ := hcommits.mp hcom
      rw [if_neg hfirst, if_neg henough]
      have hmod := h.modify hn hc (f := VoteInCall.commit) fun _ => rfl
      refine ⟨_, .single (pumpNext_check hp hdecision), rfl, Represents.asyncSend ?_ _⟩
      exact Represents.congr hmod rfl rfl rfl rfl rfl
    · rw [if_neg hcom] at hdecision
      have hsame : (if c.session.committed = true then M
          else if c.session.ackedBy.length < c.session.needed then M
          else (M.putVoteIn c.target { c.session with committed := true }).asyncSend
            (.memberAdd c.target c.session.addr)) = M := by
        by_cases hfirst : c.session.committed = true
        · rw [if_pos hfirst]
        · rw [if_neg hfirst]
          refine if_pos ?_
          by_contra henough
          exact hcom (hcommits.mpr ⟨hfirst, henough⟩)
      rw [hsame]
      exact ⟨_, .single (pumpNext_check hp hdecision), rfl, Represents.congr h rfl rfl rfl rfl rfl⟩

/-- Undisturbed, the pump does with an answer what the atomic handler does. -/
theorem Represents.answer (h : Represents m M) (hidle : m.pump = .idle) (nack : Bool) :
    ∃ m', PumpRun (m.receive target sender nack) m' ∧ m'.pump = .idle ∧
      Represents m' (answer M sender target nack) := by
  cases hn : m.voteInSessions target with
  | none =>
    have hnone : VoteInManager.answer M sender target nack = M := by
      cases nack <;> simp [VoteInManager.answer, Manager.handleVoteInNack,
        Manager.handleVoteInAck, h.lookup_none hn]
    rw [hnone, VoteInManager.receive, hn]
    exact ⟨m, .refl, hidle, h⟩
  | some n =>
    obtain ⟨c, hc, -⟩ := h.targets target n hn
    rw [answer_eq (h.lookup hn hc), VoteInManager.receive, hn]
    have htally := h.modify hn hc (f := fun c => c.tally sender nack) fun _ => rfl
    have hnext : Represents { m with
        calls := m.calls.modify n fun c => c.tally sender nack
        pump := .check n } (M.putVoteIn target (c.tally sender nack).session) :=
      htally.congr rfl rfl rfl rfl rfl
    have hc' : (m.calls.modify n fun c => c.tally sender nack)[n]? =
        some (c.tally sender nack) := by
      simp [hc]
    obtain ⟨m', hrun, hp', hrep⟩ := hnext.checkVoteInDecision hn hc' rfl
    exact ⟨m', .head rfl hrun, hp', hrep⟩

end Comlink.VoteInManager
