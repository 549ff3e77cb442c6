import Comlink.VoteManager
import Comlink.GuardedRuns
import Comlink.ListScans

/-!
# What a call of VoteIn returns

The calls of `VoteIn` at the granularity of the locks. A session is an object of its own,
known by the number of its call. The table of the manager leads from a target to a session,
and whoever takes a session out of the table decides what its caller gets to know. Whether
the target is announced is decided elsewhere, by the tally of the session, under another
lock: the pump looks a session up, counts an answer and looks at the tally in three
sections, and the goroutine of the caller looks at it as well. Then it gives up its wait,
and cancels whatever session it finds under its target. Acks and Nacks come from anywhere
at any time, and a `MemberAdd` that was sent may reach any replica at any time.
-/
namespace Comlink
open GuardedRuns ListScans

/-- Where the goroutine of a call stands. It is to cancel the session because of a Nack
before it waits, because of an error after it, and then waits for the session to close. -/
inductive VoteInStage where
  | broadcasting
  | checking
  | nacking
  | waiting
  | cancelling (err : VoteError)
  | closing
  | returned (err : Option VoteError)
  deriving DecidableEq, Repr

/-- A call of `VoteIn` with its session. The outcome is what `session.done` has fixed. -/
structure VoteInCall where
  target : ReplicaID
  session : VoteInSession
  outcome : Option (Option VoteError)
  stage : VoteInStage
  deriving DecidableEq, Repr

/-- Where the pump stands with an answer. -/
inductive VoteInPump where
  | idle
  | tally (n : ℕ) (sender : ReplicaID) (nack : Bool)
  | check (n : ℕ)
  | cancel (target : ReplicaID)
  deriving DecidableEq, Repr

/-- The part of a manager that `VoteIn` works on. `adds` are the calls whose `MemberAdd`
waits in a goroutine to be sent. -/
structure VoteInManager where
  self : ReplicaID
  initialGroupSize : ℕ
  membershipList : List ReplicaID
  voteInSessions : ReplicaID → Option ℕ
  calls : List VoteInCall
  pump : VoteInPump
  adds : List ℕ

/-- The tally makes the proposer announce the target. -/
def VoteInSession.commits (s : VoteInSession) : Bool :=
  s.nackedBy = [] && !s.committed && s.needed ≤ s.ackedBy.length

def VoteInSession.tally (s : VoteInSession) (sender : ReplicaID) (nack : Bool) : VoteInSession :=
  if nack then { s with nackedBy := s.nackedBy.insert sender }
  else { s with ackedBy := s.ackedBy.insert sender }

theorem VoteInSession.committed_tally (s : VoteInSession) (sender : ReplicaID) (nack : Bool) :
    (s.tally sender nack).committed = s.committed := by
  unfold tally
  split <;> rfl

namespace VoteInCall

def tally (c : VoteInCall) (sender : ReplicaID) (nack : Bool) : VoteInCall :=
  { c with session := c.session.tally sender nack }

/-- `session.done.Do`: the first outcome stays. -/
def complete (c : VoteInCall) (err : Option VoteError) : VoteInCall :=
  { c with outcome := c.outcome.or (some err) }

/-- The target is announced. -/
def commit (c : VoteInCall) : VoteInCall :=
  { c with session := { c.session with committed := true } }

/-- The session was closed with an error. -/
def failed (c : VoteInCall) : Bool :=
  match c.outcome with
  | some (some _) => true
  | _ => false

end VoteInCall

namespace VoteInManager

def new (self : ReplicaID) (members : List ReplicaID) (initialGroupSize : ℕ) : VoteInManager where
  self := self
  initialGroupSize := if initialGroupSize = 0 then members.length else initialGroupSize
  membershipList := members
  voteInSessions := fun _ => none
  calls := []
  pump := .idle
  adds := []

def isMember (m : VoteInManager) (r : ReplicaID) : Bool := r ∈ m.membershipList

def inMajority (m : VoteInManager) : Bool := m.initialGroupSize < m.membershipList.length * 2

def moveTo (m : VoteInManager) (n : ℕ) (stage : VoteInStage) : VoteInManager :=
  { m with calls := m.calls.modify n fun c => { c with stage := stage } }

/-- `VoteIn` until it releases the lock. -/
def voteIn (m : VoteInManager) (target : ReplicaID) (addr : String) :
    Except VoteError VoteInManager :=
  if target = m.self then .error .targetIsSelf
  else if m.isMember target then .error .targetAlreadyMember
  else if !m.inMajority then .error .partitionMinority
  else match m.voteInSessions target with
    | some _ => .error .inProgress
    | none => .ok { m with
        voteInSessions := Function.update m.voteInSessions target (some m.calls.length)
        calls := m.calls ++
          [⟨target, ⟨addr, m.membershipList, [m.self], [], false⟩, none, .broadcasting⟩] }

def cancelVoteInSession (m : VoteInManager) (target : ReplicaID) (err : VoteError) :
    VoteInManager :=
  match m.voteInSessions target with
  | none => m
  | some n =>
    { m with
      voteInSessions := Function.update m.voteInSessions target none
      calls := m.calls.modify n fun c => c.complete (some err) }

/-- `checkVoteInDecision` while it holds the lock of the session, and the target whose
session is to be cancelled after it. -/
def checkVoteInDecision (m : VoteInManager) (n : ℕ) : VoteInManager × Option ReplicaID :=
  match m.calls[n]? with
  | none => (m, none)
  | some c =>
    if c.session.nackedBy ≠ [] then (m, some c.target)
    else if c.session.commits then
      ({ m with calls := m.calls.modify n VoteInCall.commit, adds := m.adds ++ [n] }, none)
    else (m, none)

def applyMemberAdd (m : VoteInManager) (target : ReplicaID) : VoteInManager :=
  if m.isMember target then m
  else
    { m with
      membershipList := m.membershipList ++ [target]
      voteInSessions := Function.update m.voteInSessions target none
      calls := match m.voteInSessions target with
        | none => m.calls
        | some n => m.calls.modify n fun c => c.complete none }

def handleMemberAdd (m : VoteInManager) (target : ReplicaID) : VoteInManager :=
  if target = m.self then m else m.applyMemberAdd target

/-- An accepted removal of a member. -/
def removeMember (m : VoteInManager) (target : ReplicaID) : VoteInManager :=
  { m with membershipList := m.membershipList.filter (· ≠ target) }

/-- `handleVoteInAck` and `handleVoteInNack` up to the first release of the lock. -/
def receive (m : VoteInManager) (target sender : ReplicaID) (nack : Bool) : VoteInManager :=
  match m.voteInSessions target with
  | none => m
  | some n => { m with pump := .tally n sender nack }

/-- The next section of the pump. -/
def pumpNext (m : VoteInManager) : Option VoteInManager :=
  match m.pump with
  | .idle => none
  | .tally n sender nack => some { m with
      calls := m.calls.modify n fun c => c.tally sender nack
      pump := .check n }
  | .check n => match m.checkVoteInDecision n with
    | (m', none) => some { m' with pump := .idle }
    | (m', some target) => some { m' with pump := .cancel target }
  | .cancel target => some { m.cancelVoteInSession target .nacked with pump := .idle }

/-- What the goroutine of a call does next. -/
inductive CallStep where
  | broadcast (ok : Bool)
  | check
  | nack
  | expire (err : VoteError)
  | cancel
  | complete
  deriving DecidableEq, Repr

/-- The wait ends with the timeout or with the context. -/
def callNext (m : VoteInManager) (n : ℕ) (c : VoteInCall) (a : CallStep) : Option VoteInManager :=
  match c.stage, a with
  | .broadcasting, .broadcast ok =>
    some (m.moveTo n (if ok then .checking else .cancelling .broadcastFailed))
  | .checking, .check => match m.checkVoteInDecision n with
    | (m', none) => some (m'.moveTo n .waiting)
    | (m', some _) => some (m'.moveTo n .nacking)
  | .nacking, .nack => some ((m.cancelVoteInSession c.target .nacked).moveTo n .waiting)
  | .waiting, .expire err =>
    if err = .timeout ∨ err = .contextDone then some (m.moveTo n (.cancelling err)) else none
  | .cancelling err, .cancel => some ((m.cancelVoteInSession c.target err).moveTo n .closing)
  | .waiting, .complete | .closing, .complete =>
    c.outcome.map fun err => m.moveTo n (.returned err)
  | _, _ => none

end VoteInManager

/-- The managers of a group, the calls whose `MemberAdd` was sent, and where it was applied:
the replica, the proposer and the call. -/
structure VoteInGroup where
  manager : ReplicaID → VoteInManager
  sent : List (ReplicaID × ℕ)
  applied : List (ReplicaID × ReplicaID × ℕ)

inductive VoteInAction where
  | voteIn (r target : ReplicaID) (addr : String)
  | call (r : ReplicaID) (n : ℕ) (a : VoteInManager.CallStep)
  | receive (r target sender : ReplicaID) (nack : Bool)
  | pump (r : ReplicaID)
  | send (r : ReplicaID) (n : ℕ) (ok : Bool)
  | deliver (r proposer : ReplicaID) (n : ℕ)
  | remove (r target : ReplicaID)
  deriving DecidableEq, Repr

namespace VoteInGroup

def start (members : List ReplicaID) (initialGroupSize : ℕ) : VoteInGroup :=
  ⟨fun r => .new r members initialGroupSize, [], []⟩

def setManager (g : VoteInGroup) (r : ReplicaID) (m : VoteInManager) : VoteInGroup :=
  { g with manager := Function.update g.manager r m }

/-- The target of a call is new to a replica. -/
def applies (m : VoteInManager) (target : ReplicaID) : Bool :=
  target ≠ m.self && !m.isMember target

def step (g : VoteInGroup) : VoteInAction → Option VoteInGroup
  | .voteIn r target addr => match (g.manager r).voteIn target addr with
    | .error _ => some g
    | .ok m => some (g.setManager r m)
  | .call r n a => (g.manager r).calls[n]?.bind fun c =>
      ((g.manager r).callNext n c a).map (g.setManager r)
  | .receive r target sender nack =>
    if (g.manager r).pump = .idle then
      some (g.setManager r ((g.manager r).receive target sender nack))
    else none
  | .pump r => (g.manager r).pumpNext.map (g.setManager r)
  | .send r n ok =>
    if n ∈ (g.manager r).adds then
      some { g.setManager r { g.manager r with adds := (g.manager r).adds.erase n } with
        sent := if ok then g.sent ++ [(r, n)] else g.sent }
    else none
  | .deliver r proposer n =>
    if (proposer, n) ∈ g.sent ∧ (g.manager r).pump = .idle then
      (g.manager proposer).calls[n]?.map fun c =>
        { g.setManager r ((g.manager r).handleMemberAdd c.target) with
          applied := if applies (g.manager r) c.target then g.applied ++ [(r, proposer, n)]
            else g.applied }
    else none
  | .remove r target => some (g.setManager r ((g.manager r).removeMember target))

end VoteInGroup

/-- A failed call is not committed, and a call returns its outcome. -/
structure VoteInCall.Sound (c : VoteInCall) : Prop where
  agree : c.failed = true → c.session.committed = false
  returned : ∀ err, c.stage = .returned err → c.outcome = some err

theorem VoteInCall.Sound.complete {c : VoteInCall} (h : c.Sound) (err : Option VoteError)
    (hopen : err ≠ none → c.session.committed = false) : (c.complete err).Sound := by
  refine ⟨fun hf => ?_, fun err' hst => ?_⟩
  · cases ho : c.outcome with
    | none =>
      refine hopen ?_
      rintro rfl
      simp [VoteInCall.failed, VoteInCall.complete, ho] at hf
    | some o =>
      refine h.agree ?_
      simpa [VoteInCall.failed, VoteInCall.complete, ho] using hf
  · have hret := h.returned err' hst
    simp [VoteInCall.complete, hret]

theorem VoteInCall.Sound.commit {c : VoteInCall} (h : c.Sound) (hf : c.failed ≠ true) :
    c.commit.Sound :=
  ⟨fun hf' => absurd hf' hf, h.returned⟩

theorem VoteInCall.Sound.tally {c : VoteInCall} (h : c.Sound) (sender : ReplicaID)
    (nack : Bool) : (c.tally sender nack).Sound :=
  ⟨fun hf => (c.session.committed_tally sender nack).trans (h.agree hf), h.returned⟩

namespace VoteInManager

variable {m m' : VoteInManager} {n : ℕ} {c : VoteInCall} {target : ReplicaID}

/-- The call of this number has announced its target. -/
def Committed (m : VoteInManager) (n : ℕ) : Prop :=
  ∃ c, m.calls[n]? = some c ∧ c.session.committed = true

structure Sound (m : VoteInManager) : Prop where
  calls : ∀ (n : ℕ) (c : VoteInCall), m.calls[n]? = some c → c.Sound
  adds : ∀ n ∈ m.adds, m.Committed n

/-- The managers after a step: sound, and every announcement stays one. -/
structure Continues (m m' : VoteInManager) : Prop where
  sound : m'.Sound
  committed : ∀ n, m.Committed n → m'.Committed n

theorem Continues.refl (h : m.Sound) : Continues m m := ⟨h, fun _ hn => hn⟩

theorem Continues.trans {m'' : VoteInManager} (h : Continues m m') (h' : Continues m' m'') :
    Continues m m'' := ⟨h'.sound, fun n hn => h'.committed n (h.committed n hn)⟩

/-- Fields beside the calls and the announcements do not matter. -/
theorem Sound.continues (h : m.Sound) (hcalls : m'.calls = m.calls)
    (hadds : ∀ n ∈ m'.adds, n ∈ m.adds) : Continues m m' := by
  have hcommitted : ∀ n, m.Committed n → m'.Committed n := fun n ⟨c, hc, hcom⟩ =>
    ⟨c, hcalls ▸ hc, hcom⟩
  refine ⟨⟨fun n c hc => h.calls n c (hcalls ▸ hc), fun n hn => ?_⟩, hcommitted⟩
  exact hcommitted n (h.adds n (hadds n hn))

/-- One call changes. -/
theorem Sound.modify (h : m.Sound) {f : VoteInCall → VoteInCall}
    (hf : ∀ c, m.calls[n]? = some c → (f c).Sound ∧
      (c.session.committed = true → (f c).session.committed = true)) :
    Continues m { m with calls := m.calls.modify n f } := by
  have hcommitted : ∀ k, m.Committed k →
      Committed { m with calls := m.calls.modify n f } k := by
    rintro k ⟨c, hc, hcom⟩
    by_cases hnk : n = k
    · subst hnk
      refine ⟨f c, ?_, (hf c hc).2 hcom⟩
      simp [hc]
    · refine ⟨c, ?_, hcom⟩
      simp [hnk, hc]
  refine ⟨⟨fun k c hc => ?_, fun k hk => hcommitted k (h.adds k hk)⟩, hcommitted⟩
  rcases getElem?_modify_cases hc with ⟨rfl, a, ha, rfl⟩ | ⟨-, hc⟩
  · exact (hf a ha).1
  · exact h.calls k c hc

theorem Sound.moveTo (h : m.Sound) {stage : VoteInStage}
    (hstage : ∀ c err, m.calls[n]? = some c → stage = .returned err → c.outcome = some err) :
    Continues m (m.moveTo n stage) :=
  h.modify fun c hc => ⟨⟨(h.calls n c hc).agree, fun err => hstage c err hc⟩, fun hcom => hcom⟩

/-- A cancelled session is not committed. -/
def CancelsClean (m : VoteInManager) (target : ReplicaID) : Prop :=
  ∀ n ∈ m.voteInSessions target, ∀ c ∈ m.calls[n]?, c.session.committed = false

/-- A session that the tally commits has not failed. -/
def CommitsClean (m : VoteInManager) (n : ℕ) : Prop :=
  ∀ c ∈ m.calls[n]?, c.session.commits = true → c.failed = false

instance (m : VoteInManager) (target : ReplicaID) : Decidable (m.CancelsClean target) :=
  inferInstanceAs (Decidable (∀ n ∈ m.voteInSessions target, ∀ c ∈ m.calls[n]?,
    c.session.committed = false))

instance (m : VoteInManager) (n : ℕ) : Decidable (m.CommitsClean n) :=
  inferInstanceAs (Decidable (∀ c ∈ m.calls[n]?, c.session.commits = true → c.failed = false))

theorem Sound.cancelVoteInSession (h : m.Sound) (err : VoteError) (hok : m.CancelsClean target) :
    Continues m (m.cancelVoteInSession target err) := by
  unfold VoteInManager.cancelVoteInSession
  split
  · exact .refl h
  · rename_i n hn
    have hmod := h.modify (n := n) (f := fun c => c.complete (some err)) fun c hc =>
      ⟨(h.calls n c hc).complete (some err) fun _ => hok n hn c hc, fun hcom => hcom⟩
    exact hmod.trans (hmod.sound.continues rfl fun _ hk => hk)

theorem Sound.checkVoteInDecision (h : m.Sound) (hok : m.CommitsClean n) :
    Continues m (m.checkVoteInDecision n).1 := by
  unfold VoteInManager.checkVoteInDecision
  split
  · exact .refl h
  · rename_i c hc
    split
    · exact .refl h
    · split
      · rename_i hcommits
        have hmod := h.modify (n := n) (f := VoteInCall.commit) fun c' hc' =>
          ⟨(h.calls n c' hc').commit fun hf => ?_, fun _ => rfl⟩
        · refine ⟨⟨hmod.sound.calls, fun k hk => ?_⟩, hmod.committed⟩
          rcases List.mem_append.mp hk with hk | hk
          · exact hmod.sound.adds k hk
          · rw [List.mem_singleton.mp hk]
            exact ⟨c.commit, by simp [hc], rfl⟩
        · cases hc.symm.trans hc'
          rw [hok c hc hcommits] at hf
          cases hf
      · exact .refl h

theorem Sound.handleMemberAdd (h : m.Sound) (target : ReplicaID) :
    Continues m (m.handleMemberAdd target) := by
  unfold VoteInManager.handleMemberAdd VoteInManager.applyMemberAdd
  split
  · exact .refl h
  · split
    · exact .refl h
    · cases hn : m.voteInSessions target with
      | none => exact h.continues rfl fun _ hk => hk
      | some n =>
        have hmod := h.modify (n := n) (f := fun c => c.complete none) fun c hc =>
          ⟨(h.calls n c hc).complete none fun hne => absurd rfl hne, fun hcom => hcom⟩
        exact hmod.trans (hmod.sound.continues rfl fun _ hk => hk)

theorem Sound.voteIn (h : m.Sound) {addr : String} (hm : m.voteIn target addr = .ok m') :
    Continues m m' := by
  unfold VoteInManager.voteIn at hm
  split at hm
  · cases hm
  split at hm
  · cases hm
  split at hm
  · cases hm
  split at hm
  · cases hm
  cases hm
  have hcommitted : ∀ k c, m.calls[k]? = some c → (m.calls ++
      [⟨target, ⟨addr, m.membershipList, [m.self], [], false⟩, none, .broadcasting⟩])[k]? =
        some c := fun k c hc => by
    rw [List.getElem?_append_left (List.getElem?_eq_some_iff.mp hc).1, hc]
  refine ⟨⟨fun k c hc => ?_, fun k hk => ?_⟩, fun k ⟨c, hc, hcom⟩ => ⟨c, hcommitted k c hc, hcom⟩⟩
  · rcases getElem?_concat_cases hc with hc | ⟨-, rfl⟩
    · exact h.calls k c hc
    · exact ⟨fun _ => rfl, nofun⟩
  · obtain ⟨c, hc, hcom⟩ := h.adds k hk
    exact ⟨c, hcommitted k c hc, hcom⟩

theorem Sound.receive (h : m.Sound) (sender : ReplicaID) (nack : Bool) :
    Continues m (m.receive target sender nack) := by
  unfold VoteInManager.receive
  split
  · exact .refl h
  · exact h.continues rfl fun _ hk => hk

/-- The next section of the pump neither fails a committed session nor commits a failed one. -/
def PumpsClean (m : VoteInManager) : Prop :=
  match m.pump with
  | .check n => m.CommitsClean n
  | .cancel target => m.CancelsClean target
  | _ => True

/-- The same for the goroutine of a call. -/
def StepsClean (m : VoteInManager) (n : ℕ) : CallStep → Prop
  | .check => m.CommitsClean n
  | .nack | .cancel => ∀ c ∈ m.calls[n]?, m.CancelsClean c.target
  | _ => True

instance (m : VoteInManager) : Decidable m.PumpsClean :=
  match h : m.pump with
  | .check n => decidable_of_iff (m.CommitsClean n) (by rw [PumpsClean, h])
  | .cancel target => decidable_of_iff (m.CancelsClean target) (by rw [PumpsClean, h])
  | .idle | .tally _ _ _ => isTrue (by rw [PumpsClean, h]; trivial)

instance (m : VoteInManager) (n : ℕ) (a : CallStep) : Decidable (m.StepsClean n a) :=
  match a with
  | .check => inferInstanceAs (Decidable (m.CommitsClean n))
  | .nack | .cancel => inferInstanceAs (Decidable (∀ c ∈ m.calls[n]?, m.CancelsClean c.target))
  | .broadcast _ | .expire _ | .complete => isTrue trivial

theorem Sound.pumpNext (h : m.Sound) (hok : m.PumpsClean) (hm : m.pumpNext = some m') :
    Continues m m' := by
  unfold VoteInManager.pumpNext at hm
  unfold PumpsClean at hok
  cases hp : m.pump with
  | idle =>
    rw [hp] at hm
    cases hm
  | tally n sender nack =>
    rw [hp] at hm
    cases hm
    have hmod := h.modify (n := n) (f := fun c => c.tally sender nack) fun c hc =>
      ⟨(h.calls n c hc).tally sender nack, fun hcom => hcom ▸ c.session.committed_tally sender nack⟩
    exact hmod.trans (hmod.sound.continues rfl fun _ hk => hk)
  | check n =>
    rw [hp] at hm hok
    have hcheck := h.checkVoteInDecision hok
    dsimp only at hm
    split at hm
    · rename_i heq
      cases hm
      rw [heq] at hcheck
      exact hcheck.trans (hcheck.sound.continues rfl fun _ hk => hk)
    · rename_i heq
      cases hm
      rw [heq] at hcheck
      exact hcheck.trans (hcheck.sound.continues rfl fun _ hk => hk)
  | cancel target =>
    rw [hp] at hm hok
    cases hm
    have hcancel := h.cancelVoteInSession .nacked hok
    exact hcancel.trans (hcancel.sound.continues rfl fun _ hk => hk)

theorem Sound.callNext (h : m.Sound) (hc : m.calls[n]? = some c) {a : CallStep}
    (hok : m.StepsClean n a) (hm : m.callNext n c a = some m') : Continues m m' := by
  have hmove : ∀ {m : VoteInManager} {stage : VoteInStage}, m.Sound →
      (∀ err, stage ≠ .returned err) → Continues m (m.moveTo n stage) := fun h hne =>
    h.moveTo fun _ err _ hst => absurd hst (hne err)
  unfold VoteInManager.callNext at hm
  split at hm
  · cases hm
    exact hmove h fun err => by split <;> simp
  · have hcheck := h.checkVoteInDecision hok
    split at hm
    · rename_i heq
      cases hm
      rw [heq] at hcheck
      exact hcheck.trans (hmove hcheck.sound nofun)
    · rename_i heq
      cases hm
      rw [heq] at hcheck
      exact hcheck.trans (hmove hcheck.sound nofun)
  · cases hm
    have hcancel := h.cancelVoteInSession .nacked (hok c hc)
    exact hcancel.trans (hmove hcancel.sound nofun)
  · split at hm
    · cases hm
      exact hmove h nofun
    · cases hm
  · rename_i err _
    cases hm
    have hcancel := h.cancelVoteInSession err (hok c hc)
    exact hcancel.trans (hmove hcancel.sound nofun)
  · obtain ⟨err, herr, rfl⟩ := Option.map_eq_some_iff.mp hm
    refine h.moveTo fun c' err' hc' hst => ?_
    cases hc.symm.trans hc'
    cases hst
    exact herr
  · obtain ⟨err, herr, rfl⟩ := Option.map_eq_some_iff.mp hm
    refine h.moveTo fun c' err' hc' hst => ?_
    cases hc.symm.trans hc'
    cases hst
    exact herr
  · cases hm

end VoteInManager

namespace VoteInGroup

variable {g t : VoteInGroup} {r : ReplicaID} {m' : VoteInManager}

/-- No session gets an error after it was committed, and none is committed after it got
one. -/
def Undivided (g : VoteInGroup) : VoteInAction → Prop
  | .call r n a => (g.manager r).StepsClean n a
  | .pump r => (g.manager r).PumpsClean
  | _ => True

instance (g : VoteInGroup) (a : VoteInAction) : Decidable (g.Undivided a) :=
  match a with
  | .call r n a => inferInstanceAs (Decidable ((g.manager r).StepsClean n a))
  | .pump r => inferInstanceAs (Decidable (g.manager r).PumpsClean)
  | .voteIn _ _ _ | .receive _ _ _ _ | .send _ _ _ | .deliver _ _ _ | .remove _ _ => isTrue trivial

/-- Whatever was sent or applied was committed by its proposer. -/
structure Sound (g : VoteInGroup) : Prop where
  manager : ∀ r, (g.manager r).Sound
  sent : ∀ x ∈ g.sent, (g.manager x.1).Committed x.2
  applied : ∀ x ∈ g.applied, (g.manager x.2.1).Committed x.2.2

theorem manager_setManager_self (g : VoteInGroup) (r : ReplicaID) (m : VoteInManager) :
    (g.setManager r m).manager r = m := by
  simp [setManager]

theorem manager_setManager_of_ne (g : VoteInGroup) {p r : ReplicaID} (hne : p ≠ r)
    (m : VoteInManager) : (g.setManager r m).manager p = g.manager p := by
  simp [setManager, hne]

theorem committed_setManager {p : ReplicaID} {n : ℕ} (hm : (g.manager r).Continues m')
    (hn : (g.manager p).Committed n) : ((g.setManager r m').manager p).Committed n := by
  by_cases hpr : p = r
  · subst hpr
    rw [manager_setManager_self]
    exact hm.committed n hn
  · rw [manager_setManager_of_ne g hpr]
    exact hn

theorem Sound.setManager (h : g.Sound) (hm : (g.manager r).Continues m') :
    (g.setManager r m').Sound := by
  refine ⟨fun p => ?_, fun x hx => committed_setManager hm (h.sent x hx),
    fun x hx => committed_setManager hm (h.applied x hx)⟩
  by_cases hpr : p = r
  · subst hpr
    rw [manager_setManager_self]
    exact hm.sound
  · rw [manager_setManager_of_ne g hpr]
    exact h.manager p

theorem sound_start (members : List ReplicaID) (initialGroupSize : ℕ) :
    (start members initialGroupSize).Sound where
  manager _ := ⟨fun _ _ hc => (nomatch hc), fun _ hn => (nomatch hn)⟩
  sent _ hx := nomatch hx
  applied _ hx := nomatch hx

/-- A `MemberAdd` leaves the queue of its proposer, to be sent or lost. -/
theorem Sound.step_send {n : ℕ} {ok : Bool} (h : g.Sound)
    (ht : step g (.send r n ok) = some t) : t.Sound := by
  unfold VoteInGroup.step at ht
  dsimp only at ht
  split at ht
  · rename_i hn
    cases ht
    have hm : (g.manager r).Continues
        { g.manager r with adds := (g.manager r).adds.erase n } :=
      (h.manager r).continues rfl fun _ hk => List.mem_of_mem_erase hk
    have hsound := h.setManager hm
    refine ⟨hsound.manager, fun x hx => ?_, hsound.applied⟩
    cases ok with
    | false => exact hsound.sent x hx
    | true =>
      rcases List.mem_append.mp hx with hx | hx
      · exact hsound.sent x hx
      · rw [List.mem_singleton.mp hx]
        exact committed_setManager hm ((h.manager r).adds n hn)
  · cases ht

theorem Sound.step_deliver {proposer : ReplicaID} {n : ℕ} (h : g.Sound)
    (ht : step g (.deliver r proposer n) = some t) : t.Sound := by
  unfold VoteInGroup.step at ht
  dsimp only at ht
  split at ht
  · rename_i hsent
    obtain ⟨c, hc, rfl⟩ := Option.map_eq_some_iff.mp ht
    have hm := (h.manager r).handleMemberAdd c.target
    have hsound := h.setManager hm
    refine ⟨hsound.manager, hsound.sent, fun x hx => ?_⟩
    dsimp only at hx
    split at hx
    · rcases List.mem_append.mp hx with hx | hx
      · exact hsound.applied x hx
      · rw [List.mem_singleton.mp hx]
        exact committed_setManager hm (h.sent _ hsent.1)
    · exact hsound.applied x hx
  · cases ht

theorem Sound.step {a : VoteInAction} (h : g.Sound) (hok : g.Undivided a)
    (ht : step g a = some t) : t.Sound := by
  cases a with
  | voteIn r target addr =>
    unfold VoteInGroup.step at ht
    dsimp only at ht
    split at ht
    · cases ht
      exact h
    · rename_i m hm
      cases ht
      exact h.setManager ((h.manager r).voteIn hm)
  | call r n a =>
    obtain ⟨c, hc, ht⟩ := Option.bind_eq_some_iff.mp ht
    obtain ⟨m, hm, rfl⟩ := Option.map_eq_some_iff.mp ht
    exact h.setManager ((h.manager r).callNext hc hok hm)
  | receive r target sender nack =>
    unfold VoteInGroup.step at ht
    dsimp only at ht
    split at ht
    · cases ht
      exact h.setManager ((h.manager r).receive sender nack)
    · cases ht
  | pump r =>
    obtain ⟨m, hm, rfl⟩ := Option.map_eq_some_iff.mp ht
    exact h.setManager ((h.manager r).pumpNext hok hm)
  | send r n ok => exact h.step_send ht
  | deliver r proposer n => exact h.step_deliver ht
  | remove r target =>
    cases ht
    exact h.setManager ((h.manager r).continues rfl fun _ hk => hk)

theorem sound_of_reach {members : List ReplicaID} {initialGroupSize : ℕ}
    (hr : Reach step Undivided (start members initialGroupSize) g) : g.Sound :=
  hr.invariant (sound_start members initialGroupSize) fun _ _ _ h hok ht => h.step hok ht

/-- In every run in which no session gets an error after it was committed, or is committed
after it got one, the `MemberAdd` of a call that returned an error is applied nowhere. -/
theorem failed_voteIn_adds_nobody {members : List ReplicaID} {initialGroupSize : ℕ}
    (hr : Reach step Undivided (start members initialGroupSize) g) {p : ReplicaID} {n : ℕ}
    {c : VoteInCall} (hc : (g.manager p).calls[n]? = some c) {err : VoteError}
    (hret : c.stage = .returned (some err)) (q : ReplicaID) : (q, p, n) ∉ g.applied := by
  intro hin
  have h := sound_of_reach hr
  have hsound := (h.manager p).calls n c hc
  have hfailed : c.failed = true := by
    rw [VoteInCall.failed, hsound.returned _ hret]
  obtain ⟨c', hc', hcommitted⟩ := h.applied _ hin
  cases hc.symm.trans hc'
  rw [hsound.agree hfailed] at hcommitted
  cases hcommitted

/-- The first of three replicas calls `VoteIn` for two others. An Ack comes for the first
target only, and the second call times out. -/
def oneAdmitted : List VoteInAction :=
  [.voteIn [1] [4] "d", .call [1] 0 (.broadcast true), .call [1] 0 .check,
   .voteIn [1] [5] "e", .call [1] 1 (.broadcast true), .receive [1] [4] [2] false, .pump [1],
   .pump [1], .send [1] 0 true, .call [1] 1 .check, .deliver [1] [1] 0, .deliver [2] [1] 0,
   .call [1] 0 .complete, .call [1] 1 (.expire .timeout), .call [1] 1 .cancel,
   .call [1] 1 .complete]

theorem failed_voteIn_adds_nobody_timeout : ∃ g c,
    execute step Undivided (start [[1], [2], [3]] 0) oneAdmitted = some g ∧
    g.applied = [([1], [1], 0), ([2], [1], 0)] ∧ (g.manager [1]).calls[1]? = some c ∧
    c.stage = .returned (some .timeout) ∧ ∀ q, (q, [1], 1) ∉ g.applied := by
  have hrun : (execute step Undivided (start [[1], [2], [3]] 0) oneAdmitted).map (fun g =>
      decide (g.applied = [([1], [1], 0), ([2], [1], 0)] ∧
        ((g.manager [1]).calls[1]?.map VoteInCall.stage) =
          some (.returned (some .timeout)))) = some true := by decide +kernel
  obtain ⟨g, hg, hr, hp⟩ := reach_of_execute hrun
  obtain ⟨happlied, hstage⟩ := of_decide_eq_true hp
  obtain ⟨c, hc, hst⟩ := Option.map_eq_some_iff.mp hstage
  exact ⟨g, c, hg, happlied, hc, hst, failed_voteIn_adds_nobody hr hc hst⟩

/-- The timeout comes between the second Ack and the delivery of the `MemberAdd`. -/
theorem timed_out_voteIn_adds : ∃ g c,
    Reach step (fun _ _ => True) (start [[1], [2], [3]] 0) g ∧
    (g.manager [1]).calls[0]? = some c ∧ c.stage = .returned (some .timeout) ∧
    g.applied = [([2], [1], 0)] ∧ (g.manager [2]).membershipList = [[1], [2], [3], [4]] := by
  have hrun : (execute step (fun _ _ => True) (start [[1], [2], [3]] 0)
      [.voteIn [1] [4] "d", .call [1] 0 (.broadcast true), .call [1] 0 .check,
       .receive [1] [4] [2] false, .pump [1], .pump [1], .call [1] 0 (.expire .timeout),
       .call [1] 0 .cancel, .call [1] 0 .complete, .send [1] 0 true,
       .deliver [2] [1] 0]).map (fun g => decide (
        ((g.manager [1]).calls[0]?.map VoteInCall.stage) = some (.returned (some .timeout)) ∧
        g.applied = [([2], [1], 0)] ∧
        (g.manager [2]).membershipList = [[1], [2], [3], [4]])) = some true := by
    decide +kernel
  obtain ⟨g, -, hr, hp⟩ := reach_of_execute hrun
  obtain ⟨hstage, happlied, hlist⟩ := of_decide_eq_true hp
  obtain ⟨c, hc, hst⟩ := Option.map_eq_some_iff.mp hstage
  exact ⟨g, c, hr, hc, hst, happlied, hlist⟩

end VoteInGroup
end Comlink
