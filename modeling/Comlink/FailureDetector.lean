import Comlink.Membership
import Mathlib.Data.Int.Notation
import Mathlib.Order.Lattice

/-!
# The failure detector

The detector of `failure/failure.go`: five operations on the tracked members, the times at
which they were last heard and the set of the suspected ones. Each operation reads the clock
once and holds the lock throughout, so that a run is a list of operations with their clock
readings. What the three tables say is compared with the history alone: who is tracked, when
a replica was last heard, and what has happened since.
-/
namespace Comlink

structure DetectorConfig where
  self : ReplicaID
  members : List ReplicaID
  quietInterval : ℤ
  suspicionInterval : ℤ

structure Detector where
  cfg : DetectorConfig
  lastSent : ℤ
  lastReceived : ReplicaID → Option ℤ
  suspected : ReplicaID → Bool
  memberByteForms : List ReplicaID

inductive DetectorEvent where
  | noteSent
  | noteReceived (r : ReplicaID)
  | addMember (r : ReplicaID)
  | removeMember (r : ReplicaID)
  | tick
  deriving DecidableEq, Repr

namespace Detector

/-- In nanoseconds. -/
def defaultQuietInterval : ℤ := 500000000
def defaultSuspicionInterval : ℤ := 2000000000

/-- `New`, which takes every member for one that was just heard. -/
def new (cfg : DetectorConfig) (now : ℤ) : Detector where
  cfg :=
    { cfg with
      quietInterval := if cfg.quietInterval = 0 then defaultQuietInterval else cfg.quietInterval
      suspicionInterval :=
        if cfg.suspicionInterval = 0 then defaultSuspicionInterval else cfg.suspicionInterval }
  lastSent := now
  lastReceived r := if r ∈ cfg.members then some now else none
  suspected _ := false
  memberByteForms := cfg.members

def noteSent (d : Detector) (now : ℤ) : Detector := { d with lastSent := now }

def noteReceived (d : Detector) (r : ReplicaID) (now : ℤ) : Detector :=
  { d with
    lastReceived := Function.update d.lastReceived r (some now)
    suspected := Function.update d.suspected r false }

def addMember (d : Detector) (r : ReplicaID) (now : ℤ) : Detector :=
  if r = d.cfg.self then d
  else if r ∈ d.memberByteForms then d.noteReceived r now
  else
    { d with
      memberByteForms := d.memberByteForms ++ [r]
      lastReceived := Function.update d.lastReceived r (some now) }

def removeMember (d : Detector) (r : ReplicaID) : Detector :=
  { d with
    lastReceived := Function.update d.lastReceived r none
    suspected := Function.update d.suspected r false
    memberByteForms := d.memberByteForms.filter (· ≠ r) }

/-- One round of the loop in `tick`, with the newly suspected replicas. -/
def checkMember (now : ℤ) (st : Detector × List ReplicaID) (r : ReplicaID) :
    Detector × List ReplicaID :=
  let (d, newlySuspected) := st
  if r = d.cfg.self then st
  else if d.suspected r then st
  else
    match d.lastReceived r with
    | none => ({ d with lastReceived := Function.update d.lastReceived r (some now) },
        newlySuspected)
    | some last =>
      if d.cfg.suspicionInterval ≤ now - last then
        ({ d with suspected := Function.update d.suspected r true }, newlySuspected ++ [r])
      else st

/-- `tick`: whether it sends a heartbeat, and for whom it calls `OnSuspect`. -/
def tick (d : Detector) (now : ℤ) : Detector × Bool × List ReplicaID :=
  let sendHeartbeat := decide (d.cfg.quietInterval ≤ now - d.lastSent)
  let d := if sendHeartbeat then { d with lastSent := now } else d
  let (d, newlySuspected) := d.memberByteForms.foldl (checkMember now) (d, [])
  (d, sendHeartbeat, newlySuspected)

def step (d : Detector) (e : ℤ × DetectorEvent) : Detector :=
  match e.2 with
  | .noteSent => d.noteSent e.1
  | .noteReceived r => d.noteReceived r e.1
  | .addMember r => d.addMember r e.1
  | .removeMember r => d.removeMember r
  | .tick => (d.tick e.1).1

/-- The detector after these operations. -/
def after (cfg : DetectorConfig) (start : ℤ) (events : List (ℤ × DetectorEvent)) : Detector :=
  events.foldl step (new cfg start)

/-- The calls of `OnSuspect` by a tick that follows on these operations. -/
def onSuspect (cfg : DetectorConfig) (start : ℤ) (events : List (ℤ × DetectorEvent)) (now : ℤ) :
    List ReplicaID := ((after cfg start events).tick now).2.2

variable {cfg : DetectorConfig} {start now t : ℤ} {events : List (ℤ × DetectorEvent)}
variable {e : ℤ × DetectorEvent} {d : Detector} {r q : ReplicaID}

section History

/-- The latest `AddMember` or `RemoveMember` decides; at the start the members are tracked. -/
def tracked (cfg : DetectorConfig) (r : ReplicaID) (events : List (ℤ × DetectorEvent)) : Bool :=
  events.foldl (fun b e => match e.2 with
    | .addMember q => b || (q == r && r != cfg.self)
    | .removeMember q => b && q != r
    | _ => b) (decide (r ∈ cfg.members))

/-- The replica is heard, or it enters with the benefit of having been heard. -/
def Hears (r : ReplicaID) (e : DetectorEvent) : Prop := e = .noteReceived r ∨ e = .addMember r

instance (r : ReplicaID) (e : DetectorEvent) : Decidable (Hears r e) :=
  inferInstanceAs (Decidable (_ ∨ _))

/-- The latest of the start and the times at which the replica was heard or added. -/
def heardAt (start : ℤ) (r : ReplicaID) (events : List (ℤ × DetectorEvent)) : ℤ :=
  ((events.filter fun e => Hears r e.2).map Prod.fst).foldl max start

/-- The operations that end a suspicion. -/
def Resets (r : ReplicaID) (e : DetectorEvent) : Prop := Hears r e ∨ e = .removeMember r

/-- A tick at this time finds a tracked replica other than the own one silent for too long. -/
def Silent (cfg : DetectorConfig) (start : ℤ) (r : ReplicaID)
    (events : List (ℤ × DetectorEvent)) (now : ℤ) : Prop :=
  tracked cfg r events = true ∧ r ≠ cfg.self ∧
    (new cfg start).cfg.suspicionInterval ≤ now - heardAt start r events

instance (cfg : DetectorConfig) (start : ℤ) (r : ReplicaID)
    (events : List (ℤ × DetectorEvent)) (now : ℤ) : Decidable (Silent cfg start r events now) :=
  inferInstanceAs (Decidable (_ ∧ _ ∧ _))

/-- At some tick of the history this was so, and nothing has ended a suspicion since. -/
def Since (r : ReplicaID) (P : List (ℤ × DetectorEvent) → ℤ → Prop)
    (events : List (ℤ × DetectorEvent)) : Prop :=
  ∃ pre t post, events = pre ++ (t, .tick) :: post ∧ P pre t ∧ ∀ e ∈ post, ¬ Resets r e.2

theorem since_nil {P : List (ℤ × DetectorEvent) → ℤ → Prop} : ¬ Since r P [] := by
  rintro ⟨pre, t, post, h, -⟩
  simp at h

theorem since_concat {P : List (ℤ × DetectorEvent) → ℤ → Prop} :
    Since r P (events ++ [e]) ↔
      (e.2 = .tick ∧ P events e.1) ∨ (¬ Resets r e.2 ∧ Since r P events) := by
  constructor
  · rintro ⟨pre, t, post, h, hP, hpost⟩
    rcases List.eq_nil_or_concat post with rfl | ⟨post, e', rfl⟩
    · obtain ⟨rfl, he⟩ := List.append_inj' h rfl
      cases he
      exact Or.inl ⟨rfl, hP⟩
    · have hsplit : events ++ [e] = (pre ++ (t, .tick) :: post) ++ [e'] := by simpa using h
      obtain ⟨rfl, he⟩ := List.append_inj' hsplit rfl
      cases he
      exact Or.inr ⟨hpost e (by simp), pre, t, post, rfl, hP, fun x hx => hpost x (by simp [hx])⟩
  · rintro (⟨he, hP⟩ | ⟨he, pre, t, post, rfl, hP, hpost⟩)
    · obtain ⟨t, ev⟩ := e
      cases he
      exact ⟨events, t, [], rfl, hP, by simp⟩
    · refine ⟨pre, t, post ++ [e], by simp, hP, fun x hx => ?_⟩
      rcases List.mem_append.mp hx with hx | hx
      · exact hpost x hx
      · rw [List.mem_singleton.mp hx]
        exact he

@[simp] theorem after_concat :
    after cfg start (events ++ [e]) = (after cfg start events).step e := by
  simp [after]

theorem tracked_concat : tracked cfg r (events ++ [e]) = match e.2 with
    | .addMember q => tracked cfg r events || (q == r && r != cfg.self)
    | .removeMember q => tracked cfg r events && q != r
    | _ => tracked cfg r events := by
  simp [tracked]

theorem heardAt_concat : heardAt start r (events ++ [e]) =
    if Hears r e.2 then max (heardAt start r events) e.1 else heardAt start r events := by
  by_cases h : Hears r e.2 <;> simp [heardAt, h]

/-- No reading of a clock that never goes back is later than the present one. -/
theorem heardAt_le (h : ∀ e ∈ events, e.1 ≤ now) (hstart : start ≤ now) :
    heardAt start r events ≤ now := by
  induction events using List.reverseRecOn with
  | nil => exact hstart
  | append_singleton events e ih =>
    have hevents : heardAt start r events ≤ now := ih fun x hx => h x (by simp [hx])
    rw [heardAt_concat]
    split_ifs
    · exact max_le hevents (h e (by simp))
    · exact hevents

end History

section Ticks

/-- The replica was last heard too long before. -/
def overdue (d : Detector) (now : ℤ) (r : ReplicaID) : Bool :=
  match d.lastReceived r with
  | none => false
  | some last => d.cfg.suspicionInterval ≤ now - last

/-- A tick that meets the replica among the members suspects it. -/
def Due (d : Detector) (now : ℤ) (r : ReplicaID) : Prop :=
  r ≠ d.cfg.self ∧ d.suspected r = false ∧ d.overdue now r = true

instance (d : Detector) (now : ℤ) (r : ReplicaID) : Decidable (d.Due now r) :=
  inferInstanceAs (Decidable (_ ∧ _ ∧ _))

/-- The detector with one more suspected replica. -/
def suspect (d : Detector) (r : ReplicaID) : Detector :=
  { d with suspected := Function.update d.suspected r true }

theorem checkMember_eq (calls : List ReplicaID)
    (hknown : r ≠ d.cfg.self → d.lastReceived r ≠ none) : checkMember now (d, calls) r =
      if d.Due now r then (d.suspect r, calls ++ [r]) else (d, calls) := by
  by_cases hself : r = d.cfg.self
  · simp [checkMember, Due, hself]
  · obtain ⟨last, hlast⟩ := Option.ne_none_iff_exists'.mp (hknown hself)
    cases hsus : d.suspected r with
    | true => simp [checkMember, Due, hself, hsus]
    | false => simp [checkMember, Due, overdue, suspect, hself, hsus, hlast]

theorem due_suspect : (d.suspect q).Due now r ↔ d.Due now r ∧ r ≠ q := by
  have hoverdue : (d.suspect q).overdue now r = d.overdue now r := rfl
  by_cases hr : r = q
  · simp [Due, suspect, hr]
  · rw [Due, hoverdue]
    simp [Due, suspect, hr]

/-- The loop suspects exactly those that are due, each once, however often it meets them. -/
theorem foldl_checkMember (now : ℤ) (members calls : List ReplicaID) (d : Detector)
    (hknown : ∀ r ∈ members, r ≠ d.cfg.self → d.lastReceived r ≠ none) :
    (members.foldl (checkMember now) (d, calls)).1 =
        { d with suspected := fun r => d.suspected r || decide (r ∈ members ∧ d.Due now r) } ∧
      ∀ r, (members.foldl (checkMember now) (d, calls)).2.count r =
        calls.count r + if r ∈ members ∧ d.Due now r then 1 else 0 := by
  induction members generalizing d calls with
  | nil => simp
  | cons q members ih =>
    have hrest : ∀ r ∈ members, r ≠ d.cfg.self → d.lastReceived r ≠ none :=
      fun r hr => hknown r (by simp [hr])
    rw [List.foldl_cons, checkMember_eq calls (hknown q (by simp))]
    by_cases hdue : d.Due now q
    · rw [if_pos hdue]
      obtain ⟨hstate, hcount⟩ := ih (calls ++ [q]) (d.suspect q) hrest
      constructor
      · rw [hstate]
        refine congrArg (fun f => { d with suspected := f }) (funext fun r => ?_)
        simp only [due_suspect]
        by_cases hr : r = q
        · simp [suspect, hr, hdue]
        · simp [suspect, hr]
      · intro r
        rw [hcount]
        simp only [due_suspect]
        by_cases hr : r = q
        · simp [hr, hdue]
        · simp [hr, Ne.symm hr]
    · rw [if_neg hdue]
      obtain ⟨hstate, hcount⟩ := ih calls d hrest
      have hsame : ∀ r, (r ∈ q :: members ∧ d.Due now r) ↔ r ∈ members ∧ d.Due now r := by
        intro r
        by_cases hr : r = q
        · simp [hr, hdue]
        · simp [hr]
      constructor
      · rw [hstate]
        simp only [hsame]
      · intro r
        rw [hcount]
        simp only [hsame]

/-- The detector after the question for a heartbeat. -/
def quieted (d : Detector) (now : ℤ) : Detector :=
  { d with lastSent := if d.cfg.quietInterval ≤ now - d.lastSent then now else d.lastSent }

theorem tick_eq (d : Detector) (now : ℤ) :
    d.tick now = ((d.memberByteForms.foldl (checkMember now) (d.quieted now, [])).1,
      decide (d.cfg.quietInterval ≤ now - d.lastSent),
      (d.memberByteForms.foldl (checkMember now) (d.quieted now, [])).2) := by
  unfold tick quieted
  by_cases hquiet : d.cfg.quietInterval ≤ now - d.lastSent
  · simp [hquiet]
  · simp [hquiet]

/-- Every member but the own replica was heard at some time. -/
def Known (d : Detector) : Prop :=
  ∀ r ∈ d.memberByteForms, r ≠ d.cfg.self → d.lastReceived r ≠ none

theorem tick_state (hknown : d.Known) :
    (d.tick now).1 = { d.quieted now with
      suspected := fun r => d.suspected r || decide (r ∈ d.memberByteForms ∧ d.Due now r) } := by
  rw [tick_eq]
  exact (foldl_checkMember now d.memberByteForms [] (d.quieted now) hknown).1

theorem count_tick (hknown : d.Known) (r : ReplicaID) :
    (d.tick now).2.2.count r = if r ∈ d.memberByteForms ∧ d.Due now r then 1 else 0 := by
  rw [tick_eq]
  have hcount := (foldl_checkMember now d.memberByteForms [] (d.quieted now) hknown).2 r
  rwa [List.count_nil, Nat.zero_add] at hcount

end Ticks

section Mirror

/-- The tables agree with the history. -/
structure Mirrors (cfg : DetectorConfig) (start : ℤ) (events : List (ℤ × DetectorEvent))
    (d : Detector) : Prop where
  config : d.cfg = (new cfg start).cfg
  members : ∀ r, r ∈ d.memberByteForms ↔ tracked cfg r events = true
  heard : ∀ r, tracked cfg r events = true → r ≠ cfg.self →
    d.lastReceived r = some (heardAt start r events)
  suspected : ∀ r, d.suspected r = true → tracked cfg r events = true ∧ r ≠ cfg.self

theorem mirrors_new : Mirrors cfg start [] (new cfg start) := by
  refine ⟨rfl, ?_, ?_, ?_⟩
  · simp [new, tracked]
  · intro r hr _
    simp [tracked] at hr
    simp [new, heardAt, hr]
  · simp [new]

theorem Mirrors.self (h : Mirrors cfg start events d) : d.cfg.self = cfg.self := by
  rw [h.config]
  rfl

theorem Mirrors.known (h : Mirrors cfg start events d) : d.Known := by
  intro r hr hself
  rw [h.self] at hself
  simp [h.heard r ((h.members r).mp hr) hself]

/-- The replicas that a tick newly suspects are the silent ones that are not suspected. -/
theorem Mirrors.due_iff (h : Mirrors cfg start events d) :
    (r ∈ d.memberByteForms ∧ d.Due now r) ↔
      Silent cfg start r events now ∧ d.suspected r = false := by
  rw [h.members, Due, h.self, Silent]
  by_cases hr : tracked cfg r events = true ∧ r ≠ cfg.self
  · have hoverdue : d.overdue now r = true ↔
        (new cfg start).cfg.suspicionInterval ≤ now - heardAt start r events := by
      simp [overdue, h.heard r hr.1 hr.2, h.config]
    rw [hoverdue]
    tauto
  · tauto

theorem Mirrors.noteReceived (h : Mirrors cfg start events d)
    (hclock : heardAt start q events ≤ t) :
    Mirrors cfg start (events ++ [(t, .noteReceived q)]) (d.noteReceived q t) := by
  have htracked : ∀ r, tracked cfg r (events ++ [(t, .noteReceived q)]) =
      tracked cfg r events := fun r => tracked_concat
  refine ⟨h.config, ?_, ?_, ?_⟩
  · intro r
    rw [htracked]
    exact h.members r
  · intro r hr hself
    rw [htracked] at hr
    rw [heardAt_concat]
    by_cases hrq : r = q
    · subst hrq
      simp [Detector.noteReceived, Hears, max_eq_right hclock]
    · simp [Detector.noteReceived, Hears, hrq, Ne.symm hrq, h.heard r hr hself]
  · intro r hr
    rw [htracked]
    by_cases hrq : r = q
    · simp [Detector.noteReceived, hrq] at hr
    · exact h.suspected r (by simpa [Detector.noteReceived, hrq] using hr)

/-- A replica other than the own one becomes a member that was just heard. -/
theorem Mirrors.admit (h : Mirrors cfg start events d) (hself : q ≠ cfg.self)
    (hclock : heardAt start q events ≤ t) {d' : Detector} (hcfg : d'.cfg = d.cfg)
    (hmembers : ∀ r, r ∈ d'.memberByteForms ↔ r = q ∨ r ∈ d.memberByteForms)
    (hlast : d'.lastReceived = Function.update d.lastReceived q (some t))
    (hsuspected : ∀ r, d'.suspected r = true → r ≠ q ∧ d.suspected r = true) :
    Mirrors cfg start (events ++ [(t, .addMember q)]) d' := by
  have htracked : ∀ r, tracked cfg r (events ++ [(t, .addMember q)]) =
      (tracked cfg r events || (q == r && r != cfg.self)) := fun r => tracked_concat
  refine ⟨hcfg.trans h.config, ?_, ?_, ?_⟩
  · intro r
    rw [hmembers, h.members, htracked]
    by_cases hr : r = q
    · simp [hr, hself]
    · simp [hr, Ne.symm hr]
  · intro r hr hne
    rw [hlast, heardAt_concat]
    by_cases hrq : r = q
    · subst hrq
      simp [Hears, max_eq_right hclock]
    · have hold : tracked cfg r events = true := by simpa [htracked, Ne.symm hrq] using hr
      simp [Hears, hrq, Ne.symm hrq, h.heard r hold hne]
  · intro r hr
    obtain ⟨hrq, hold⟩ := hsuspected r hr
    rw [htracked]
    simp [h.suspected r hold]

/-- The own replica is not added. -/
theorem Mirrors.addMember_self (h : Mirrors cfg start events d) (t : ℤ) :
    Mirrors cfg start (events ++ [(t, .addMember cfg.self)]) d := by
  have htracked : ∀ r, tracked cfg r (events ++ [(t, .addMember cfg.self)]) =
      tracked cfg r events := by
    intro r
    rw [tracked_concat]
    by_cases hr : r = cfg.self
    · simp [hr]
    · simp [Ne.symm hr]
  refine ⟨h.config, ?_, ?_, ?_⟩
  · intro r
    rw [htracked]
    exact h.members r
  · intro r hr hne
    rw [htracked] at hr
    rw [heardAt_concat, h.heard r hr hne]
    simp [Hears, Ne.symm hne]
  · intro r hr
    rw [htracked]
    exact h.suspected r hr

theorem Mirrors.addMember (h : Mirrors cfg start events d)
    (hclock : heardAt start q events ≤ t) :
    Mirrors cfg start (events ++ [(t, .addMember q)]) (d.addMember q t) := by
  unfold Detector.addMember
  rw [h.self]
  by_cases hself : q = cfg.self
  · rw [if_pos hself, hself]
    exact h.addMember_self t
  · rw [if_neg hself]
    by_cases hmem : q ∈ d.memberByteForms
    · rw [if_pos hmem]
      refine h.admit hself hclock rfl ?_ rfl ?_
      · intro r
        by_cases hr : r = q
        · simp [Detector.noteReceived, hr, hmem]
        · simp [Detector.noteReceived, hr]
      · intro r hr
        by_cases hrq : r = q
        · simp [Detector.noteReceived, hrq] at hr
        · exact ⟨hrq, by simpa [Detector.noteReceived, hrq] using hr⟩
    · rw [if_neg hmem]
      refine h.admit hself hclock rfl ?_ rfl ?_
      · intro r
        simp [or_comm]
      · intro r hr
        refine ⟨?_, hr⟩
        rintro rfl
        exact hmem ((h.members r).mpr (h.suspected r hr).1)

theorem Mirrors.removeMember (h : Mirrors cfg start events d) :
    Mirrors cfg start (events ++ [(t, .removeMember q)]) (d.removeMember q) := by
  have htracked : ∀ r, tracked cfg r (events ++ [(t, .removeMember q)]) =
      (tracked cfg r events && q != r) := fun r => tracked_concat
  refine ⟨h.config, ?_, ?_, ?_⟩
  · intro r
    rw [htracked]
    simp [Detector.removeMember, h.members, ne_comm]
  · intro r hr hself
    rw [htracked] at hr
    rw [heardAt_concat]
    have hrq : r ≠ q := by
      rintro rfl
      simp at hr
    have hold : tracked cfg r events = true := by
      rw [Bool.and_eq_true] at hr
      exact hr.1
    simp [Detector.removeMember, Hears, hrq, h.heard r hold hself]
  · intro r hr
    rw [htracked]
    by_cases hrq : r = q
    · simp [Detector.removeMember, hrq] at hr
    · have hold := h.suspected r (by simpa [Detector.removeMember, hrq] using hr)
      simp [hold, Ne.symm hrq]

theorem Mirrors.tick (h : Mirrors cfg start events d) :
    Mirrors cfg start (events ++ [(t, .tick)]) (d.tick t).1 := by
  have htracked : ∀ r, tracked cfg r (events ++ [(t, .tick)]) = tracked cfg r events :=
    fun r => tracked_concat
  have hheard : ∀ r, heardAt start r (events ++ [(t, .tick)]) = heardAt start r events := by
    intro r
    rw [heardAt_concat]
    simp [Hears]
  rw [tick_state h.known]
  refine ⟨h.config, ?_, ?_, ?_⟩
  · intro r
    rw [htracked]
    exact h.members r
  · intro r hr hself
    rw [htracked] at hr
    rw [hheard]
    exact h.heard r hr hself
  · intro r hr
    rw [htracked]
    rcases Bool.or_eq_true_iff.mp hr with hr | hr
    · exact h.suspected r hr
    · have hsilent := (h.due_iff.mp (of_decide_eq_true hr)).1
      exact ⟨hsilent.1, hsilent.2.1⟩

theorem Mirrors.step (h : Mirrors cfg start events d)
    (hclock : ∀ r, heardAt start r events ≤ e.1) :
    Mirrors cfg start (events ++ [e]) (d.step e) := by
  obtain ⟨t, ev⟩ := e
  cases ev with
  | noteSent =>
    refine ⟨h.config, ?_, ?_, ?_⟩
    · intro r
      rw [tracked_concat]
      exact h.members r
    · intro r hr hself
      rw [tracked_concat] at hr
      rw [heardAt_concat]
      simp [Detector.step, Detector.noteSent, Hears, h.heard r hr hself]
    · intro r hr
      rw [tracked_concat]
      exact h.suspected r hr
  | noteReceived q => exact h.noteReceived (hclock q)
  | addMember q => exact h.addMember (hclock q)
  | removeMember q => exact h.removeMember
  | tick => exact h.tick

/-- The clock readings do not decrease. -/
def Ordered (start : ℤ) (events : List (ℤ × DetectorEvent)) : Prop :=
  (start :: events.map Prod.fst).Pairwise (· ≤ ·)

instance (start : ℤ) (events : List (ℤ × DetectorEvent)) : Decidable (Ordered start events) :=
  inferInstanceAs (Decidable (List.Pairwise _ _))

theorem Ordered.split (h : Ordered start (events ++ [e])) :
    Ordered start events ∧ start ≤ e.1 ∧ ∀ x ∈ events, x.1 ≤ e.1 := by
  simp only [Ordered, List.map_append, List.map_cons, List.map_nil, ← List.cons_append,
    List.pairwise_append, List.mem_cons, List.mem_map] at h
  obtain ⟨hevents, -, hlast⟩ := h
  exact ⟨hevents, hlast start (by simp) e.1 (by simp),
    fun x hx => hlast x.1 (Or.inr ⟨x, hx, rfl⟩) e.1 (by simp)⟩

theorem Ordered.heardAt_le (h : Ordered start (events ++ [e])) (r : ReplicaID) :
    heardAt start r events ≤ e.1 :=
  Detector.heardAt_le h.split.2.2 h.split.2.1

theorem mirrors_after (cfg : DetectorConfig) (h : Ordered start events) :
    Mirrors cfg start events (after cfg start events) := by
  induction events using List.reverseRecOn with
  | nil => exact mirrors_new
  | append_singleton events e ih =>
    rw [after_concat]
    exact (ih h.split.1).step h.heardAt_le

end Mirror

section Suspicions

/-- Whoever is added is not suspected. -/
theorem Mirrors.suspected_addMember (h : Mirrors cfg start events d) :
    (d.addMember q t).suspected r = true ↔ r ≠ q ∧ d.suspected r = true := by
  unfold Detector.addMember
  rw [h.self]
  by_cases hself : q = cfg.self
  · rw [if_pos hself, hself]
    exact ⟨fun hr => ⟨(h.suspected r hr).2, hr⟩, fun hr => hr.2⟩
  · rw [if_neg hself]
    by_cases hmem : q ∈ d.memberByteForms
    · rw [if_pos hmem]
      by_cases hr : r = q <;> simp [Detector.noteReceived, hr]
    · rw [if_neg hmem]
      refine ⟨fun hr => ⟨?_, hr⟩, fun hr => hr.2⟩
      rintro rfl
      exact hmem ((h.members r).mpr (h.suspected r hr).1)

/-- What one operation does to the suspicion of a replica. -/
theorem suspected_concat (h : Ordered start (events ++ [e])) :
    (after cfg start (events ++ [e])).suspected r = true ↔
      (e.2 = .tick ∧ Silent cfg start r events e.1) ∨
        (¬ Resets r e.2 ∧ (after cfg start events).suspected r = true) := by
  have hm := mirrors_after cfg h.split.1
  rw [after_concat]
  obtain ⟨t, ev⟩ := e
  generalize after cfg start events = d at hm ⊢
  cases ev with
  | noteSent => simp [step, noteSent, Resets, Hears]
  | noteReceived q =>
    by_cases hr : r = q
    · simp [step, noteReceived, Resets, Hears, hr]
    · simp [step, noteReceived, Resets, Hears, hr, Ne.symm hr]
  | addMember q =>
    simp only [step, hm.suspected_addMember]
    simp [Resets, Hears, ne_comm]
  | removeMember q =>
    by_cases hr : r = q
    · simp [step, removeMember, Resets, Hears, hr]
    · simp [step, removeMember, Resets, Hears, hr, Ne.symm hr]
  | tick =>
    simp only [step, tick_state hm.known]
    rw [Bool.or_eq_true, decide_eq_true_iff, hm.due_iff]
    cases hs : d.suspected r <;> simp [Resets, Hears]

/-- A suspicion lasts from the tick that found the replica silent. -/
theorem suspected_iff_since_silent (h : Ordered start events) :
    (after cfg start events).suspected r = true ↔ Since r (Silent cfg start r) events := by
  induction events using List.reverseRecOn with
  | nil => simp [after, new, since_nil]
  | append_singleton events e ih => rw [suspected_concat h, since_concat, ih h.split.1]

theorem count_onSuspect (h : Ordered start events) :
    (onSuspect cfg start events now).count r =
      if Silent cfg start r events now ∧ (after cfg start events).suspected r = false
        then 1 else 0 := by
  have hm := mirrors_after cfg h
  rw [onSuspect, count_tick hm.known]
  simp only [hm.due_iff]

theorem mem_onSuspect (h : Ordered start events) :
    r ∈ onSuspect cfg start events now ↔
      Silent cfg start r events now ∧ (after cfg start events).suspected r = false := by
  rw [← List.count_pos_iff, count_onSuspect h]
  split_ifs with hnew <;> simp [hnew]

/-- A suspicion lasts from the call of `OnSuspect`. -/
theorem suspected_iff_since_call (h : Ordered start events) :
    (after cfg start events).suspected r = true ↔
      Since r (fun pre t => r ∈ onSuspect cfg start pre t) events := by
  induction events using List.reverseRecOn with
  | nil => simp [after, new, since_nil]
  | append_singleton events e ih =>
    rw [suspected_concat h, since_concat, ← ih h.split.1, mem_onSuspect h.split.1]
    by_cases htick : e.2 = .tick
    · cases hs : (after cfg start events).suspected r <;> simp [htick, Resets, Hears]
    · simp [htick]

/-- A member that was removed and not added again is not tracked. -/
theorem tracked_of_removed {pre post : List (ℤ × DetectorEvent)}
    (hpost : ∀ e ∈ post, e.2 ≠ .addMember r) :
    tracked cfg r (pre ++ (t, .removeMember r) :: post) = false := by
  induction post using List.reverseRecOn with
  | nil => simp [tracked_concat]
  | append_singleton post e ih =>
    have hold := ih fun x hx => hpost x (by simp [hx])
    have he := hpost e (by simp)
    rw [← List.cons_append, ← List.append_assoc, tracked_concat, hold]
    obtain ⟨t, ev⟩ := e
    cases ev with
    | addMember q =>
      have hq : q ≠ r := by
        rintro rfl
        exact he rfl
      simp [hq]
    | _ => simp

/-- In every run with clock readings that do not decrease: a tick calls `OnSuspect` once for
each replica that it makes suspected, which are those for which it is the first tick to find
them silent, never the own replica or one that was removed; and a replica is suspected from
such a call until it is heard, added or removed. -/
theorem suspects_exactly_the_silent (cfg : DetectorConfig)
    (h : Ordered start (events ++ [(now, .tick)])) (r : ReplicaID) :
    ((onSuspect cfg start events now).count r =
      if (after cfg start events).suspected r = false ∧
        (after cfg start (events ++ [(now, .tick)])).suspected r = true then 1 else 0) ∧
    (r ∈ onSuspect cfg start events now ↔
      Silent cfg start r events now ∧ ¬ Since r (Silent cfg start r) events) ∧
    cfg.self ∉ onSuspect cfg start events now ∧
    (∀ pre t post, events = pre ++ (t, .removeMember r) :: post →
      (∀ e ∈ post, e.2 ≠ .addMember r) → r ∉ onSuspect cfg start events now) ∧
    ((after cfg start events).suspected r = true ↔
      Since r (fun pre t => r ∈ onSuspect cfg start pre t) events) := by
  have hevents := h.split.1
  refine ⟨?_, ?_, ?_, ?_, suspected_iff_since_call hevents⟩
  · rw [count_onSuspect hevents]
    refine if_congr ?_ rfl rfl
    rw [suspected_concat h]
    cases hs : (after cfg start events).suspected r <;> simp
  · rw [mem_onSuspect hevents, ← suspected_iff_since_silent hevents, Bool.not_eq_true]
  · rw [mem_onSuspect hevents]
    rintro ⟨⟨-, hself, -⟩, -⟩
    exact hself rfl
  · rintro pre t post rfl hpost hmem
    have htracked := ((mem_onSuspect hevents).mp hmem).1.1
    rw [tracked_of_removed hpost] at htracked
    cases htracked

/-- A member that was suspected, removed and added again is suspected a second time. -/
def readmitted : List (ℤ × DetectorEvent) :=
  [(3, .noteReceived [2]), (13, .tick), (14, .removeMember [2]), (15, .noteReceived [2]),
    (20, .addMember [2]), (25, .tick)]

theorem suspects_exactly_the_silent_readmitted :
    [2] ∈ onSuspect ⟨[1], [[1], [2]], 5, 10⟩ 0 readmitted 30 ∧
      (onSuspect ⟨[1], [[1], [2]], 5, 10⟩ 0 readmitted 30).count [2] = 1 := by
  have hordered : Ordered 0 (readmitted ++ [(30, .tick)]) := by decide
  have hexact := suspects_exactly_the_silent ⟨[1], [[1], [2]], 5, 10⟩ hordered [2]
  have hcount : (onSuspect ⟨[1], [[1], [2]], 5, 10⟩ 0 readmitted 30).count [2] = 1 := by
    rw [hexact.1]
    decide
  exact ⟨List.count_pos_iff.mp (by rw [hcount]; decide), hcount⟩

end Suspicions
end Detector
end Comlink
