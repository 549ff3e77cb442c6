import Comlink.FailureDetector
import Comlink.GuardedRuns
import Mathlib.Data.Finset.Max

/-!
# Failure detection in a group

Every member of a group runs the detector of `failure/failure.go`, and sends heartbeats to the
others when its detector asks for one. A send runs in a goroutine of its own: it hands the frame
to the conversation and calls `NoteSent` after that. A frame that arrives is noted by the
detector of its receiver.

The group is timely where ticks, goroutines and frames have deadlines. Time passes by an action
of its own, which may not go beyond any of them.
-/
namespace Comlink
open GuardedRuns

/-- The intervals of the detectors, and the bounds on the time between two ticks, for each of the
two parts of a send, and for the travel of a frame. -/
structure Timing where
  quiet : ℤ
  suspicion : ℤ
  tick : ℤ
  send : ℤ
  travel : ℤ

namespace Timing

/-- The longest time between two frames of a member. -/
def gap (T : Timing) : ℤ := T.quiet + T.tick + 2 * T.send

structure Fits (T : Timing) : Prop where
  quiet : 0 < T.quiet
  tick : 0 ≤ T.tick
  send : 0 ≤ T.send
  travel : 0 ≤ T.travel
  suspicion : T.gap + T.travel < T.suspicion

theorem Fits.gap_nonneg {T : Timing} (hT : T.Fits) : 0 ≤ T.gap := by
  have hquiet := hT.quiet
  have htick := hT.tick
  have hsend := hT.send
  unfold gap
  omega

theorem Fits.suspicion_pos {T : Timing} (hT : T.Fits) : 0 < T.suspicion := by
  have hgap := hT.gap_nonneg
  have htravel := hT.travel
  have hsuspicion := hT.suspicion
  omega

end Timing

/-- A frame on its way, with the time at which it was sent. -/
structure SentFrame where
  origin : ReplicaID
  dest : ReplicaID
  time : ℤ
  deriving DecidableEq

structure HeartbeatGroup where
  now : ℤ
  detector : ReplicaID → Detector
  /-- The time of the last tick. -/
  ticked : ReplicaID → ℤ
  crashed : ReplicaID → Option ℤ
  /-- The sends that have not handed over their frame, with the times at which they began. -/
  sending : List (ReplicaID × ℤ)
  /-- The sends that have, but have not called `NoteSent`. -/
  sent : List (ReplicaID × ℤ)
  flight : List SentFrame

inductive HeartbeatAction where
  | pass (d : ℕ)
  | tick (p : ReplicaID)
  | submit (p : ReplicaID)
  | transmit (p : ReplicaID) (s : ℤ)
  | noteSent (p : ReplicaID) (s : ℤ)
  | deliver (f : SentFrame)
  | crash (p : ReplicaID)

namespace HeartbeatGroup

def start (T : Timing) (members : List ReplicaID) (t₀ : ℤ) : HeartbeatGroup where
  now := t₀
  detector p := .new ⟨p, members, T.quiet, T.suspicion⟩ t₀
  ticked _ := t₀
  crashed _ := none
  sending := []
  sent := []
  flight := []

/-- A tick of the detector, which begins a send where a heartbeat is due. -/
def tick (g : HeartbeatGroup) (p : ReplicaID) : HeartbeatGroup :=
  let (d, sendHeartbeat, _) := (g.detector p).tick g.now
  { g with
    detector := Function.update g.detector p d
    ticked := Function.update g.ticked p g.now
    sending := if sendHeartbeat then g.sending ++ [(p, g.now)] else g.sending }

def transmit (g : HeartbeatGroup) (members : List ReplicaID) (p : ReplicaID) (s : ℤ) :
    HeartbeatGroup :=
  { g with
    sending := g.sending.erase (p, s)
    sent := g.sent ++ [(p, g.now)]
    flight := g.flight ++ (members.filter (· ≠ p)).map fun q => ⟨p, q, g.now⟩ }

def noteSent (g : HeartbeatGroup) (p : ReplicaID) (s : ℤ) : HeartbeatGroup :=
  { g with
    detector := Function.update g.detector p ((g.detector p).noteSent g.now)
    sent := g.sent.erase (p, s) }

/-- A frame to a crashed member is lost. -/
def deliver (g : HeartbeatGroup) (f : SentFrame) : HeartbeatGroup :=
  { g with
    detector := match g.crashed f.dest with
      | none => Function.update g.detector f.dest
          ((g.detector f.dest).noteReceived f.origin g.now)
      | some _ => g.detector
    flight := g.flight.erase f }

def crash (g : HeartbeatGroup) (p : ReplicaID) : HeartbeatGroup :=
  { g with
    crashed := Function.update g.crashed p (some g.now)
    sending := g.sending.filter (·.1 ≠ p)
    sent := g.sent.filter (·.1 ≠ p) }

def Alive (members : List ReplicaID) (g : HeartbeatGroup) (p : ReplicaID) : Prop :=
  p ∈ members ∧ g.crashed p = none

instance (members : List ReplicaID) (g : HeartbeatGroup) (p : ReplicaID) :
    Decidable (Alive members g p) :=
  inferInstanceAs (Decidable (_ ∧ _))

def step (members : List ReplicaID) (g : HeartbeatGroup) :
    HeartbeatAction → Option HeartbeatGroup
  | .pass d => some { g with now := g.now + d }
  | .tick p => if Alive members g p then some (g.tick p) else none
  | .submit p =>
    if Alive members g p then some { g with sending := g.sending ++ [(p, g.now)] } else none
  | .transmit p s => if (p, s) ∈ g.sending then some (g.transmit members p s) else none
  | .noteSent p s => if (p, s) ∈ g.sent then some (g.noteSent p s) else none
  | .deliver f => if f ∈ g.flight then some (g.deliver f) else none
  | .crash p => if Alive members g p then some (g.crash p) else none

/-- Time does not pass a deadline. -/
def Timely (T : Timing) (members : List ReplicaID) (g : HeartbeatGroup) : HeartbeatAction → Prop
  | .pass d => (∀ p ∈ members, g.crashed p = none → g.now + d ≤ g.ticked p + T.tick) ∧
      (∀ x ∈ g.sending, g.now + d ≤ x.2 + T.send) ∧ (∀ x ∈ g.sent, g.now + d ≤ x.2 + T.send) ∧
      ∀ f ∈ g.flight, g.now + d ≤ f.time + T.travel
  | _ => True

instance (T : Timing) (members : List ReplicaID) (g : HeartbeatGroup) (a : HeartbeatAction) :
    Decidable (Timely T members g a) :=
  match a with
  | .pass _ => inferInstanceAs (Decidable (_ ∧ _))
  | .tick _ => isTrue trivial
  | .submit _ => isTrue trivial
  | .transmit _ _ => isTrue trivial
  | .noteSent _ _ => isTrue trivial
  | .deliver _ => isTrue trivial
  | .crash _ => isTrue trivial

variable {T : Timing} {members : List ReplicaID} {g g' : HeartbeatGroup} {p q : ReplicaID}

/-! ### Detectors and deadlines -/

/-- What holds of every detector at any time. -/
structure Wired (T : Timing) (members : List ReplicaID) (q : ReplicaID) (d : Detector) :
    Prop where
  config : d.cfg = ⟨q, members, T.quiet, T.suspicion⟩
  known : d.Known
  own : d.suspected q = false

theorem wired_new (hT : T.Fits) (q : ReplicaID) (t₀ : ℤ) :
    Wired T members q (.new ⟨q, members, T.quiet, T.suspicion⟩ t₀) where
  config := by
    simp only [Detector.new]
    rw [if_neg hT.quiet.ne', if_neg hT.suspicion_pos.ne']
  known r hr _ := by
    have hmem : r ∈ members := hr
    simp [Detector.new, hmem]
  own := rfl

theorem Wired.noteReceived {d : Detector} (h : Wired T members q d) (r : ReplicaID) (t : ℤ) :
    Wired T members q (d.noteReceived r t) where
  config := h.config
  known r' hr' hself := by
    by_cases hr : r' = r
    · simp [Detector.noteReceived, hr]
    · simpa [Detector.noteReceived, hr] using h.known r' hr' hself
  own := by
    by_cases hr : q = r
    · simp [Detector.noteReceived, hr]
    · simpa [Detector.noteReceived, hr] using h.own

/-- What a tick leaves of a detector. -/
theorem Wired.tick_eq {d : Detector} (h : Wired T members q d) (now : ℤ) :
    (d.tick now).1 = { d with
      lastSent := if T.quiet ≤ now - d.lastSent then now else d.lastSent
      suspected := fun r => d.suspected r || decide (r ∈ d.memberByteForms ∧ d.Due now r) } := by
  rw [Detector.tick_state h.known]
  simp only [Detector.quieted, h.config]

theorem Wired.heartbeat_eq {d : Detector} (h : Wired T members q d) (now : ℤ) :
    (d.tick now).2.1 = decide (T.quiet ≤ now - d.lastSent) := by
  rw [Detector.tick_eq, h.config]

/-- No deadline has passed. -/
structure Paced (T : Timing) (members : List ReplicaID) (g : HeartbeatGroup) : Prop where
  wired : ∀ q ∈ members, Wired T members q (g.detector q)
  ticked : ∀ q, Alive members g q → g.ticked q ≤ g.now ∧ g.now ≤ g.ticked q + T.tick
  lastSent : ∀ q, Alive members g q →
    (g.detector q).lastSent ≤ g.now ∧ g.ticked q - T.quiet ≤ (g.detector q).lastSent
  sending : ∀ x ∈ g.sending, Alive members g x.1 ∧ x.2 ≤ g.now ∧ g.now ≤ x.2 + T.send
  sent : ∀ x ∈ g.sent, Alive members g x.1 ∧ x.2 ≤ g.now ∧ g.now ≤ x.2 + T.send
  flight : ∀ f ∈ g.flight, f.dest ∈ members ∧ f.time ≤ g.now ∧ g.now ≤ f.time + T.travel

theorem paced_start (hT : T.Fits) (t₀ : ℤ) : Paced T members (start T members t₀) where
  wired q _ := wired_new hT q t₀
  ticked q _ := ⟨le_rfl, Int.le_add_of_nonneg_right hT.tick⟩
  lastSent q _ := ⟨le_rfl, Int.sub_le_self t₀ hT.quiet.le⟩
  sending x hx := by cases hx
  sent x hx := by cases hx
  flight f hf := by cases hf

theorem Paced.pass (h : Paced T members g) {d : ℕ} (ha : Timely T members g (.pass d)) :
    Paced T members { g with now := g.now + d } := by
  obtain ⟨hticks, hsending, hsent, hflight⟩ := ha
  have hle : g.now ≤ g.now + d := Int.le_add_of_nonneg_right (Int.natCast_nonneg d)
  refine ⟨h.wired, ?_, ?_, ?_, ?_, ?_⟩
  · intro q hq
    exact ⟨(h.ticked q hq).1.trans hle, hticks q hq.1 hq.2⟩
  · intro q hq
    exact ⟨(h.lastSent q hq).1.trans hle, (h.lastSent q hq).2⟩
  · intro x hx
    exact ⟨(h.sending x hx).1, (h.sending x hx).2.1.trans hle, hsending x hx⟩
  · intro x hx
    exact ⟨(h.sent x hx).1, (h.sent x hx).2.1.trans hle, hsent x hx⟩
  · intro f hf
    exact ⟨(h.flight f hf).1, (h.flight f hf).2.1.trans hle, hflight f hf⟩

/-- A send that begins now. -/
theorem Paced.begin (h : Paced T members g) (hT : T.Fits) (hp : Alive members g p) :
    ∀ x ∈ g.sending ++ [(p, g.now)],
      Alive members g x.1 ∧ x.2 ≤ g.now ∧ g.now ≤ x.2 + T.send := by
  intro x hx
  rcases List.mem_append.mp hx with hx | hx
  · exact h.sending x hx
  · rw [List.mem_singleton.mp hx]
    exact ⟨hp, le_rfl, Int.le_add_of_nonneg_right hT.send⟩

theorem Paced.tick_eq (h : Paced T members g) (hp : p ∈ members) :
    g.tick p =
      { g with
        detector := Function.update g.detector p
          { g.detector p with
            lastSent := if T.quiet ≤ g.now - (g.detector p).lastSent then g.now
              else (g.detector p).lastSent
            suspected := fun r => (g.detector p).suspected r ||
              decide (r ∈ (g.detector p).memberByteForms ∧ (g.detector p).Due g.now r) }
        ticked := Function.update g.ticked p g.now
        sending := if T.quiet ≤ g.now - (g.detector p).lastSent then g.sending ++ [(p, g.now)]
          else g.sending } := by
  simp only [HeartbeatGroup.tick, (h.wired p hp).tick_eq, (h.wired p hp).heartbeat_eq,
    decide_eq_true_eq]

theorem Paced.tick (h : Paced T members g) (hT : T.Fits) (hp : Alive members g p) :
    Paced T members (g.tick p) := by
  rw [h.tick_eq hp.1]
  refine ⟨?_, ?_, ?_, ?_, h.sent, h.flight⟩
  · apply forall_mem_update (P := Wired T members) h.wired
    intro hmem
    obtain ⟨hconfig, hknown, hown⟩ := h.wired p hmem
    refine ⟨hconfig, hknown, ?_⟩
    simp [hown, Detector.Due, hconfig]
  · intro q hq
    by_cases hqp : q = p
    · subst hqp
      simp only [Function.update_self]
      exact ⟨le_rfl, Int.le_add_of_nonneg_right hT.tick⟩
    · simp only [Function.update_of_ne hqp]
      exact h.ticked q hq
  · intro q hq
    by_cases hqp : q = p
    · subst hqp
      have hquiet := hT.quiet
      have hsent := (h.lastSent q hp).1
      simp only [Function.update_self]
      split <;> omega
    · simp only [Function.update_of_ne hqp]
      exact h.lastSent q hq
  · intro x hx
    dsimp only at hx
    split at hx
    · exact h.begin hT hp x hx
    · exact h.sending x hx

theorem Paced.submit (h : Paced T members g) (hT : T.Fits) (hp : Alive members g p) :
    Paced T members { g with sending := g.sending ++ [(p, g.now)] } :=
  ⟨h.wired, h.ticked, h.lastSent, h.begin hT hp, h.sent, h.flight⟩

theorem Paced.transmit (h : Paced T members g) (hT : T.Fits) {s : ℤ}
    (hs : (p, s) ∈ g.sending) : Paced T members (g.transmit members p s) := by
  refine ⟨h.wired, h.ticked, h.lastSent, ?_, ?_, ?_⟩
  · intro x hx
    exact h.sending x (List.mem_of_mem_erase hx)
  · intro x hx
    rcases List.mem_append.mp hx with hx | hx
    · exact h.sent x hx
    · rw [List.mem_singleton.mp hx]
      exact ⟨(h.sending _ hs).1, le_rfl, Int.le_add_of_nonneg_right hT.send⟩
  · intro f hf
    rcases List.mem_append.mp hf with hf | hf
    · exact h.flight f hf
    · obtain ⟨q, hq, rfl⟩ := List.mem_map.mp hf
      exact ⟨(List.mem_filter.mp hq).1, le_rfl, Int.le_add_of_nonneg_right hT.travel⟩

theorem Paced.noteSent (h : Paced T members g) (s : ℤ) : Paced T members (g.noteSent p s) := by
  refine ⟨?_, h.ticked, ?_, h.sending, ?_, h.flight⟩
  · apply forall_mem_update (P := Wired T members) h.wired
    intro hmem
    exact ⟨(h.wired p hmem).config, (h.wired p hmem).known, (h.wired p hmem).own⟩
  · intro q hq
    by_cases hqp : q = p
    · subst hqp
      have hticked := (h.ticked q hq).1
      have hlast := h.lastSent q hq
      simp only [HeartbeatGroup.noteSent, Function.update_self, Detector.noteSent]
      omega
    · simp only [HeartbeatGroup.noteSent, Function.update_of_ne hqp]
      exact h.lastSent q hq
  · intro x hx
    exact h.sent x (List.mem_of_mem_erase hx)

theorem deliver_detector (g : HeartbeatGroup) (f : SentFrame) (q : ReplicaID) :
    (g.deliver f).detector q = g.detector q ∨
      (g.deliver f).detector q = (g.detector q).noteReceived f.origin g.now := by
  unfold HeartbeatGroup.deliver
  cases g.crashed f.dest with
  | some c => exact Or.inl rfl
  | none =>
    by_cases hq : q = f.dest
    · subst hq
      exact Or.inr (Function.update_self ..)
    · exact Or.inl (Function.update_of_ne hq ..)

theorem deliver_tracked (g : HeartbeatGroup) (f : SentFrame) (q : ReplicaID) :
    ((g.deliver f).detector q).memberByteForms = (g.detector q).memberByteForms := by
  rcases deliver_detector g f q with heq | heq
  · rw [heq]
  · rw [heq]
    rfl

theorem deliver_lastSent (g : HeartbeatGroup) (f : SentFrame) (q : ReplicaID) :
    ((g.deliver f).detector q).lastSent = (g.detector q).lastSent := by
  rcases deliver_detector g f q with heq | heq
  · rw [heq]
  · rw [heq]
    rfl

theorem Paced.deliver (h : Paced T members g) (f : SentFrame) :
    Paced T members (g.deliver f) := by
  refine ⟨?_, h.ticked, ?_, h.sending, h.sent, ?_⟩
  · intro q hq
    rcases deliver_detector g f q with heq | heq
    · rw [heq]
      exact h.wired q hq
    · rw [heq]
      exact (h.wired q hq).noteReceived _ _
  · intro q hq
    rw [deliver_lastSent]
    exact h.lastSent q hq
  · intro f' hf'
    exact h.flight f' (List.mem_of_mem_erase hf')

theorem alive_of_crash (h : Alive members (g.crash p) q) : Alive members g q ∧ q ≠ p := by
  obtain ⟨hq, hc⟩ := h
  have hqp : q ≠ p := by
    intro heq
    simp [HeartbeatGroup.crash, heq] at hc
  simp only [HeartbeatGroup.crash, Function.update_of_ne hqp] at hc
  exact ⟨⟨hq, hc⟩, hqp⟩

theorem alive_crash (h : Alive members g q) (hqp : q ≠ p) : Alive members (g.crash p) q :=
  ⟨h.1, (Function.update_of_ne hqp ..).trans h.2⟩

theorem Paced.crash (h : Paced T members g) (p : ReplicaID) : Paced T members (g.crash p) := by
  refine ⟨h.wired, ?_, ?_, ?_, ?_, h.flight⟩
  · intro q hq
    exact h.ticked q (alive_of_crash hq).1
  · intro q hq
    exact h.lastSent q (alive_of_crash hq).1
  · intro x hx
    obtain ⟨hx, hne⟩ := List.mem_filter.mp hx
    obtain ⟨hx₁, hx₂⟩ := h.sending x hx
    exact ⟨alive_crash hx₁ (of_decide_eq_true hne), hx₂⟩
  · intro x hx
    obtain ⟨hx, hne⟩ := List.mem_filter.mp hx
    obtain ⟨hx₁, hx₂⟩ := h.sent x hx
    exact ⟨alive_crash hx₁ (of_decide_eq_true hne), hx₂⟩

/-! ### Accuracy -/

/-- The detector of `q` has heard `p` at this time or later. -/
def Heard (g : HeartbeatGroup) (p q : ReplicaID) (y : ℤ) : Prop :=
  ∃ last, (g.detector q).lastReceived p = some last ∧ y ≤ last

/-- It has, or a frame that was sent at this time or later is on its way. -/
def Supply (g : HeartbeatGroup) (p q : ReplicaID) (y : ℤ) : Prop :=
  Heard g p q y ∨ ∃ s, y ≤ s ∧ ⟨p, q, s⟩ ∈ g.flight

theorem Heard.le {y y' : ℤ} (h : Heard g p q y) (hy : y' ≤ y) : Heard g p q y' := by
  obtain ⟨last, hlast, hle⟩ := h
  exact ⟨last, hlast, hy.trans hle⟩

theorem Supply.le {y y' : ℤ} (h : Supply g p q y) (hy : y' ≤ y) : Supply g p q y' := by
  rcases h with h | ⟨s, hs, hmem⟩
  · exact Or.inl (h.le hy)
  · exact Or.inr ⟨s, hy.trans hs, hmem⟩

/-- How two live members stand to each other: the first has fed the second, or has a send under
way that will, and no frame on its way follows a longer silence than the gap. -/
structure Fed (T : Timing) (g : HeartbeatGroup) (p q : ReplicaID) : Prop where
  supply : Supply g p q ((g.detector p).lastSent - T.send) ∨
    ∃ s, (p, s) ∈ g.sending ∧ Supply g p q (s - (T.quiet + T.tick + T.send))
  sent : ∀ s, (p, s) ∈ g.sent → Supply g p q s
  chain : ∀ s, ⟨p, q, s⟩ ∈ g.flight →
    Heard g p q (s - T.gap) ∨ ∃ s', s - T.gap ≤ s' ∧ s' < s ∧ ⟨p, q, s'⟩ ∈ g.flight
  trusted : (g.detector q).suspected p = false

theorem Fed.supply_now (h : Fed T g p q) (hpaced : Paced T members g) (hT : T.Fits)
    (hp : Alive members g p) : Supply g p q (g.now - T.gap) := by
  have hsend := hT.send
  have hticked := (hpaced.ticked p hp).2
  have hlast := (hpaced.lastSent p hp).2
  rcases h.supply with hs | ⟨s, hs, hsupply⟩
  · apply hs.le
    unfold Timing.gap
    omega
  · have hdue := (hpaced.sending _ hs).2.2
    apply hsupply.le
    unfold Timing.gap
    dsimp only at hdue
    omega

/-- The earliest frame on its way is not late, and what came before it was heard. -/
theorem Fed.heard_now (h : Fed T g p q) (hpaced : Paced T members g) (hT : T.Fits)
    (hp : Alive members g p) : Heard g p q (g.now - T.gap - T.travel) := by
  have htravel := hT.travel
  rcases h.supply_now hpaced hT hp with hheard | ⟨s, -, hs⟩
  · exact hheard.le (by omega)
  · have hne : (g.flight.toFinset.filter fun f => f.origin = p ∧ f.dest = q).Nonempty :=
      ⟨⟨p, q, s⟩, by simp [hs]⟩
    obtain ⟨f, hf, hmin⟩ := Finset.exists_min_image _ SentFrame.time hne
    simp only [Finset.mem_filter, List.mem_toFinset] at hf hmin
    obtain ⟨hmem, rfl, rfl⟩ := hf
    rcases h.chain f.time hmem with hheard | ⟨s', -, hlt, hs'⟩
    · have hdue := (hpaced.flight f hmem).2.2
      exact hheard.le (by omega)
    · exact absurd (hmin _ ⟨hs', rfl, rfl⟩) (not_le.mpr hlt)

theorem fed_start (hT : T.Fits) (hp : p ∈ members) (t₀ : ℤ) :
    Fed T (start T members t₀) p q where
  supply := by
    refine Or.inl (Or.inl ⟨t₀, by simp [start, Detector.new, hp], ?_⟩)
    exact Int.sub_le_self t₀ hT.send
  sent s hs := by cases hs
  chain s hs := by cases hs
  trusted := rfl

theorem heard_congr (hreceived : (g'.detector q).lastReceived p = (g.detector q).lastReceived p)
    (y : ℤ) : Heard g' p q y ↔ Heard g p q y := by
  rw [Heard, Heard, hreceived]

theorem supply_congr (hreceived : (g'.detector q).lastReceived p = (g.detector q).lastReceived p)
    (hflight : g'.flight = g.flight) (y : ℤ) : Supply g' p q y ↔ Supply g p q y := by
  rw [Supply, Supply, heard_congr hreceived, hflight]

/-- A step that leaves the frames on their way and what was heard. -/
theorem Fed.of_eq (h : Fed T g p q)
    (hreceived : (g'.detector q).lastReceived p = (g.detector q).lastReceived p)
    (hflight : g'.flight = g.flight)
    (hsupply : Supply g p q ((g'.detector p).lastSent - T.send) ∨
      ∃ s, (p, s) ∈ g'.sending ∧ Supply g p q (s - (T.quiet + T.tick + T.send)))
    (hsent : ∀ s, (p, s) ∈ g'.sent → (p, s) ∈ g.sent)
    (htrusted : (g'.detector q).suspected p = false) : Fed T g' p q := by
  refine ⟨?_, ?_, ?_, htrusted⟩
  · simpa only [supply_congr hreceived hflight] using hsupply
  · intro s hs
    rw [supply_congr hreceived hflight]
    exact h.sent s (hsent s hs)
  · intro s hs
    rw [hflight] at hs ⊢
    rw [heard_congr hreceived]
    exact h.chain s hs

/-- Whoever was heard lately is not suspected by a tick. -/
theorem Heard.not_due (h : Heard g p q (g.now - T.gap - T.travel)) (hT : T.Fits)
    (hq : Wired T members q (g.detector q)) : ¬ (g.detector q).Due g.now p := by
  obtain ⟨last, hlast, hle⟩ := h
  rintro ⟨-, -, hoverdue⟩
  have hsuspicion := hT.suspicion
  simp only [Detector.overdue, hlast, hq.config, decide_eq_true_eq] at hoverdue
  omega

theorem Fed.tick (h : Fed T g p q) (hpaced : Paced T members g) (hT : T.Fits)
    (hp : Alive members g p) (hq : q ∈ members) {r : ReplicaID} (hr : Alive members g r) :
    Fed T (g.tick r) p q := by
  have hdue := (h.heard_now hpaced hT hp).not_due hT (hpaced.wired q hq)
  have hticked := (hpaced.ticked p hp).2
  have hlast := (hpaced.lastSent p hp).2
  rw [hpaced.tick_eq hr.1]
  apply h.of_eq
  · by_cases hqr : q = r
    · subst hqr
      simp only [Function.update_self]
    · simp only [Function.update_of_ne hqr]
  · rfl
  · by_cases hpr : p = r
    · subst hpr
      simp only [Function.update_self]
      split
      · refine Or.inr ?_
        rcases h.supply with hs | ⟨s, hs, hsupply⟩
        · exact ⟨g.now, List.mem_append_right _ (List.mem_singleton_self _), hs.le (by omega)⟩
        · exact ⟨s, List.mem_append_left _ hs, hsupply⟩
      · exact h.supply
    · simp only [Function.update_of_ne hpr]
      rcases h.supply with hs | ⟨s, hs, hsupply⟩
      · exact Or.inl hs
      · refine Or.inr ⟨s, ?_, hsupply⟩
        split
        · exact List.mem_append_left _ hs
        · exact hs
  · exact fun s hs => hs
  · by_cases hqr : q = r
    · subst hqr
      simp only [Function.update_self, h.trusted, Bool.false_or, decide_eq_false_iff_not]
      exact fun hd => hdue hd.2
    · simp only [Function.update_of_ne hqr]
      exact h.trusted

theorem Fed.submit (h : Fed T g p q) (r : ReplicaID) :
    Fed T { g with sending := g.sending ++ [(r, g.now)] } p q := by
  refine h.of_eq rfl rfl ?_ (fun _ hs => hs) h.trusted
  rcases h.supply with hs | ⟨s, hs, hsupply⟩
  · exact Or.inl hs
  · exact Or.inr ⟨s, List.mem_append_left _ hs, hsupply⟩

theorem Fed.pass (h : Fed T g p q) (d : ℕ) : Fed T { g with now := g.now + d } p q :=
  h.of_eq rfl rfl h.supply (fun _ hs => hs) h.trusted

theorem noteSent_other (g : HeartbeatGroup) (r : ReplicaID) (s : ℤ) (q : ReplicaID) :
    ((g.noteSent r s).detector q).memberByteForms = (g.detector q).memberByteForms ∧
      ((g.noteSent r s).detector q).lastReceived = (g.detector q).lastReceived ∧
      ((g.noteSent r s).detector q).suspected = (g.detector q).suspected := by
  by_cases hqr : q = r
  · subst hqr
    simp [HeartbeatGroup.noteSent, Detector.noteSent]
  · simp [HeartbeatGroup.noteSent, hqr]

theorem Fed.noteSent (h : Fed T g p q) (hpaced : Paced T members g) {r : ReplicaID} {s : ℤ}
    (hs : (r, s) ∈ g.sent) : Fed T (g.noteSent r s) p q := by
  have hdue := (hpaced.sent _ hs).2.2
  dsimp only at hdue
  obtain ⟨-, hreceived, hsuspected⟩ := noteSent_other g r s q
  apply h.of_eq
  · rw [hreceived]
  · rfl
  · by_cases hpr : p = r
    · subst hpr
      refine Or.inl ((h.sent s hs).le ?_)
      simp only [HeartbeatGroup.noteSent, Function.update_self, Detector.noteSent]
      omega
    · simp only [HeartbeatGroup.noteSent, Function.update_of_ne hpr]
      exact h.supply
  · intro s' hs'
    exact List.mem_of_mem_erase hs'
  · rw [hsuspected]
    exact h.trusted

theorem Fed.crash (h : Fed T g p q) {r : ReplicaID} (hpr : p ≠ r) : Fed T (g.crash r) p q := by
  refine h.of_eq rfl rfl ?_ ?_ h.trusted
  · rcases h.supply with hs | ⟨s, hs, hsupply⟩
    · exact Or.inl hs
    · exact Or.inr ⟨s, List.mem_filter.mpr ⟨hs, decide_eq_true hpr⟩, hsupply⟩
  · intro s hs
    exact (List.mem_filter.mp hs).1

theorem Supply.transmit {y : ℤ} (h : Supply g p q y) (r : ReplicaID) (s : ℤ) :
    Supply (g.transmit members r s) p q y := by
  rcases h with hy | ⟨s', hs', hmem⟩
  · exact Or.inl hy
  · exact Or.inr ⟨s', hs', List.mem_append_left _ hmem⟩

/-- A frame that goes out now follows on another one, or on silence that is short enough. -/
theorem Fed.chain_now (h : Fed T g p q) (hpaced : Paced T members g) (hT : T.Fits)
    (hp : Alive members g p) : Heard g p q (g.now - T.gap) ∨
      ∃ s', g.now - T.gap ≤ s' ∧ s' < g.now ∧ ⟨p, q, s'⟩ ∈ g.flight := by
  rcases h.supply_now hpaced hT hp with hheard | ⟨s', hle, hs'⟩
  · exact Or.inl hheard
  · rcases (hpaced.flight _ hs').2.1.lt_or_eq with hlt | heq
    · exact Or.inr ⟨s', hle, hlt, hs'⟩
    · -- another frame of this very moment
      have hchain := h.chain s' hs'
      rwa [show s' = g.now from heq] at hchain

/-- The frames of a member that sends go out to every other one. -/
theorem Fed.transmit (h : Fed T g p q) (hpaced : Paced T members g) (hT : T.Fits)
    (hp : Alive members g p) (hq : q ∈ members) (hne : p ≠ q) {r : ReplicaID} {s : ℤ} :
    Fed T (g.transmit members r s) p q := by
  have hchain : ∀ s', ⟨p, q, s'⟩ ∈ g.flight ∨ s' = g.now →
      Heard (g.transmit members r s) p q (s' - T.gap) ∨ ∃ s'', s' - T.gap ≤ s'' ∧ s'' < s' ∧
        ⟨p, q, s''⟩ ∈ (g.transmit members r s).flight := by
    intro s' hs'
    have hbefore : Heard g p q (s' - T.gap) ∨
        ∃ s'', s' - T.gap ≤ s'' ∧ s'' < s' ∧ ⟨p, q, s''⟩ ∈ g.flight := by
      rcases hs' with hs' | rfl
      · exact h.chain s' hs'
      · exact h.chain_now hpaced hT hp
    rcases hbefore with hheard | ⟨s'', hle, hlt, hmem⟩
    · exact Or.inl hheard
    · exact Or.inr ⟨s'', hle, hlt, List.mem_append_left _ hmem⟩
  have hflight : ∀ s', ⟨p, q, s'⟩ ∈ (g.transmit members r s).flight →
      ⟨p, q, s'⟩ ∈ g.flight ∨ s' = g.now := by
    intro s' hs'
    rcases List.mem_append.mp hs' with hs' | hs'
    · exact Or.inl hs'
    · obtain ⟨q', -, heq⟩ := List.mem_map.mp hs'
      exact Or.inr (congrArg SentFrame.time heq).symm
  by_cases hpr : p = r
  · subst hpr
    have hnow : Supply (g.transmit members p s) p q g.now := by
      refine Or.inr ⟨g.now, le_rfl, List.mem_append_right _ ?_⟩
      exact List.mem_map.mpr ⟨q, List.mem_filter.mpr ⟨hq, decide_eq_true hne.symm⟩, rfl⟩
    refine ⟨Or.inl (hnow.le ?_), ?_, fun s' hs' => hchain s' (hflight s' hs'), h.trusted⟩
    · have hlast := (hpaced.lastSent p hp).1
      have hsend := hT.send
      exact (Int.sub_le_self _ hsend).trans hlast
    · intro s' hs'
      rcases List.mem_append.mp hs' with hs' | hs'
      · exact (h.sent s' hs').transmit _ _
      · cases List.mem_singleton.mp hs'
        exact hnow
  · refine ⟨?_, ?_, fun s' hs' => hchain s' (hflight s' hs'), h.trusted⟩
    · rcases h.supply with hy | ⟨s', hs', hy⟩
      · exact Or.inl (hy.transmit _ _)
      · refine Or.inr ⟨s', ?_, hy.transmit _ _⟩
        exact (List.mem_erase_of_ne fun heq => hpr (congrArg Prod.fst heq)).mpr hs'
    · intro s' hs'
      rcases List.mem_append.mp hs' with hs' | hs'
      · exact (h.sent s' hs').transmit _ _
      · exact absurd (congrArg Prod.fst (List.mem_singleton.mp hs')) hpr

theorem deliver_self {f : SentFrame} (h : g.crashed f.dest = none) :
    (g.deliver f).detector f.dest = (g.detector f.dest).noteReceived f.origin g.now := by
  simp [HeartbeatGroup.deliver, h]

/-- A delivery says nothing to other detectors, and to this one nothing about others. -/
theorem deliver_other {f : SentFrame} (h : f.origin ≠ p ∨ f.dest ≠ q) :
    ((g.deliver f).detector q).lastReceived p = (g.detector q).lastReceived p ∧
      ((g.deliver f).detector q).suspected p = (g.detector q).suspected p := by
  unfold HeartbeatGroup.deliver
  cases g.crashed f.dest with
  | some c => exact ⟨rfl, rfl⟩
  | none =>
    by_cases hq : q = f.dest
    · have hp : p ≠ f.origin := by
        intro hpf
        rcases h with h | h
        · exact h hpf.symm
        · exact h hq.symm
      subst hq
      simp [Detector.noteReceived, hp]
    · simp [hq]

theorem Fed.deliver (h : Fed T g p q) (hpaced : Paced T members g) (hT : T.Fits)
    (hp : Alive members g p) (hq : Alive members g q) {f : SentFrame} :
    Fed T (g.deliver f) p q := by
  by_cases hf : f.origin = p ∧ f.dest = q
  · obtain ⟨rfl, rfl⟩ := hf
    have hdetector := deliver_self (f := f) hq.2
    have hheard : ∀ y, y ≤ g.now → Heard (g.deliver f) f.origin f.dest y := by
      intro y hy
      refine ⟨g.now, ?_, hy⟩
      rw [hdetector]
      simp [Detector.noteReceived]
    refine ⟨Or.inl (Or.inl (hheard _ ?_)), ?_, ?_, ?_⟩
    · rw [deliver_lastSent]
      exact (Int.sub_le_self _ hT.send).trans (hpaced.lastSent _ hp).1
    · intro s hs
      exact Or.inl (hheard s (hpaced.sent _ hs).2.1)
    · intro s hs
      have hle := (hpaced.flight _ (List.mem_of_mem_erase hs)).2.1
      exact Or.inl (hheard _ ((Int.sub_le_self _ hT.gap_nonneg).trans hle))
    · rw [hdetector]
      simp [Detector.noteReceived]
  · obtain ⟨hreceived, hsuspected⟩ := deliver_other (g := g) (not_and_or.mp hf)
    have hmem : ∀ s, ⟨p, q, s⟩ ∈ g.flight → ⟨p, q, s⟩ ∈ (g.deliver f).flight := by
      intro s hs
      refine (List.mem_erase_of_ne ?_).mpr hs
      rintro rfl
      exact hf ⟨rfl, rfl⟩
    have hsupply : ∀ y, Supply g p q y → Supply (g.deliver f) p q y := by
      intro y hy
      rcases hy with hy | ⟨s, hs, hfl⟩
      · exact Or.inl ((heard_congr hreceived y).mpr hy)
      · exact Or.inr ⟨s, hs, hmem s hfl⟩
    refine ⟨?_, fun s hs => hsupply s (h.sent s hs), ?_, hsuspected.trans h.trusted⟩
    · rw [deliver_lastSent]
      rcases h.supply with hy | ⟨s, hs, hy⟩
      · exact Or.inl (hsupply _ hy)
      · exact Or.inr ⟨s, hs, hsupply _ hy⟩
    · intro s hs
      rcases h.chain s (List.mem_of_mem_erase hs) with hy | ⟨s', hle, hlt, hfl⟩
      · exact Or.inl ((heard_congr hreceived _).mpr hy)
      · exact Or.inr ⟨s', hle, hlt, hmem s' hfl⟩

/-- The part of the invariant that keeps live members from being suspected. -/
structure Accurate (T : Timing) (members : List ReplicaID) (g : HeartbeatGroup) : Prop where
  paced : Paced T members g
  fed : ∀ p q, Alive members g p → Alive members g q → p ≠ q → Fed T g p q

theorem accurate_start (hT : T.Fits) (t₀ : ℤ) : Accurate T members (start T members t₀) where
  paced := paced_start hT t₀
  fed _ _ hp _ _ := fed_start hT hp.1 t₀

/-- What an action of the group does. -/
inductive Stepped (members : List ReplicaID) (g : HeartbeatGroup) :
    HeartbeatAction → HeartbeatGroup → Prop
  | pass (d : ℕ) : Stepped members g (.pass d) { g with now := g.now + d }
  | tick {r : ReplicaID} (hr : Alive members g r) : Stepped members g (.tick r) (g.tick r)
  | submit {r : ReplicaID} (hr : Alive members g r) :
      Stepped members g (.submit r) { g with sending := g.sending ++ [(r, g.now)] }
  | transmit {r : ReplicaID} {s : ℤ} (hs : (r, s) ∈ g.sending) :
      Stepped members g (.transmit r s) (g.transmit members r s)
  | noteSent {r : ReplicaID} {s : ℤ} (hs : (r, s) ∈ g.sent) :
      Stepped members g (.noteSent r s) (g.noteSent r s)
  | deliver {f : SentFrame} (hf : f ∈ g.flight) : Stepped members g (.deliver f) (g.deliver f)
  | crash {r : ReplicaID} (hr : Alive members g r) : Stepped members g (.crash r) (g.crash r)

theorem stepped_of_step {a : HeartbeatAction} (h : g.step members a = some g') :
    Stepped members g a g' := by
  cases a with
  | pass d =>
    cases h
    exact .pass d
  | tick r =>
    obtain ⟨hr, h⟩ := Option.ite_none_right_eq_some.mp h
    cases h
    exact .tick hr
  | submit r =>
    obtain ⟨hr, h⟩ := Option.ite_none_right_eq_some.mp h
    cases h
    exact .submit hr
  | transmit r s =>
    obtain ⟨hs, h⟩ := Option.ite_none_right_eq_some.mp h
    cases h
    exact .transmit hs
  | noteSent r s =>
    obtain ⟨hs, h⟩ := Option.ite_none_right_eq_some.mp h
    cases h
    exact .noteSent hs
  | deliver f =>
    obtain ⟨hf, h⟩ := Option.ite_none_right_eq_some.mp h
    cases h
    exact .deliver hf
  | crash r =>
    obtain ⟨hr, h⟩ := Option.ite_none_right_eq_some.mp h
    cases h
    exact .crash hr

theorem alive_of_stepped {a : HeartbeatAction} (hs : Stepped members g a g')
    (h : Alive members g' q) : Alive members g q := by
  cases hs with
  | crash hr => exact (alive_of_crash h).1
  | _ => exact h

theorem Accurate.step {a : HeartbeatAction} (h : Accurate T members g) (hT : T.Fits)
    (ha : Timely T members g a) (hs : Stepped members g a g') : Accurate T members g' := by
  obtain ⟨hpaced, hfed⟩ := h
  cases hs with
  | pass d => exact ⟨hpaced.pass ha, fun p q hp hq hne => (hfed p q hp hq hne).pass d⟩
  | tick hr =>
    refine ⟨hpaced.tick hT hr, ?_⟩
    intro p q hp hq hne
    exact (hfed p q hp hq hne).tick hpaced hT hp hq.1 hr
  | submit hr => exact ⟨hpaced.submit hT hr, fun p q hp hq hne => (hfed p q hp hq hne).submit _⟩
  | transmit hs =>
    refine ⟨hpaced.transmit hT hs, ?_⟩
    intro p q hp hq hne
    exact (hfed p q hp hq hne).transmit hpaced hT hp hq.1 hne
  | noteSent hs =>
    refine ⟨hpaced.noteSent _, ?_⟩
    intro p q hp hq hne
    exact (hfed p q hp hq hne).noteSent hpaced hs
  | deliver hf =>
    refine ⟨hpaced.deliver _, ?_⟩
    intro p q hp hq hne
    exact (hfed p q hp hq hne).deliver hpaced hT hp hq
  | crash hr =>
    refine ⟨hpaced.crash _, ?_⟩
    intro p q hp hq hne
    obtain ⟨hp', hpr⟩ := alive_of_crash hp
    exact (hfed p q hp' (alive_of_crash hq).1 hne).crash hpr

/-! ### Completeness -/

/-- What one member knows of another: it suspects it, or has heard it not long before its last
tick. -/
structure Notices (T : Timing) (g : HeartbeatGroup) (p q : ReplicaID) : Prop where
  tracked : p ∈ (g.detector q).memberByteForms
  late : ∀ last, (g.detector q).lastReceived p = some last →
    last ≤ g.now ∧ ((g.detector q).suspected p = true ∨ g.ticked q < last + T.suspicion)
  /-- A crashed member has sent nothing since. -/
  dead : ∀ c, g.crashed p = some c → (∀ s, ⟨p, q, s⟩ ∈ g.flight → s ≤ c) ∧
    ∀ last, (g.detector q).lastReceived p = some last → last ≤ c + T.travel

theorem notices_start (hT : T.Fits) (hp : p ∈ members) (t₀ : ℤ) :
    Notices T (start T members t₀) p q where
  tracked := hp
  late last hlast := by
    have hlast' : t₀ = last := by simpa [start, Detector.new, hp] using hlast
    have hsuspicion := hT.suspicion_pos
    refine ⟨hlast'.ge, Or.inr ?_⟩
    simp only [start]
    omega
  dead c hc := by cases hc

/-- A step after which the detector is as before, and no frame is new. -/
theorem Notices.of_eq (h : Notices T g p q)
    (htracked : (g'.detector q).memberByteForms = (g.detector q).memberByteForms)
    (hreceived : (g'.detector q).lastReceived p = (g.detector q).lastReceived p)
    (hsuspected : (g'.detector q).suspected p = (g.detector q).suspected p)
    (hticked : g'.ticked q = g.ticked q) (hnow : g.now ≤ g'.now)
    (hcrashed : g'.crashed p = g.crashed p)
    (hflight : ∀ s, ⟨p, q, s⟩ ∈ g'.flight → ⟨p, q, s⟩ ∈ g.flight) : Notices T g' p q where
  tracked := htracked ▸ h.tracked
  late last hlast := by
    rw [hreceived] at hlast
    rw [hsuspected, hticked]
    exact ⟨(h.late last hlast).1.trans hnow, (h.late last hlast).2⟩
  dead c hc := by
    rw [hcrashed] at hc
    rw [hreceived]
    exact ⟨fun s hs => (h.dead c hc).1 s (hflight s hs), (h.dead c hc).2⟩

theorem Notices.tick (h : Notices T g p q) (hpaced : Paced T members g) (hne : p ≠ q)
    {r : ReplicaID} (hr : Alive members g r) : Notices T (g.tick r) p q := by
  rw [hpaced.tick_eq hr.1]
  by_cases hqr : q = r
  · subst hqr
    refine ⟨?_, ?_, ?_⟩
    · simp only [Function.update_self]
      exact h.tracked
    · intro last hlast
      simp only [Function.update_self] at hlast ⊢
      refine ⟨(h.late last hlast).1, ?_⟩
      by_cases hdue : T.suspicion ≤ g.now - last
      · left
        cases hs : (g.detector q).suspected p with
        | true => rfl
        | false =>
          have hconfig := (hpaced.wired q hr.1).config
          have hself : p ≠ (g.detector q).cfg.self := by
            rw [hconfig]
            exact hne
          have hoverdue : (g.detector q).overdue g.now p = true := by
            simp [Detector.overdue, hlast, hconfig, hdue]
          rw [Bool.false_or, decide_eq_true_eq]
          exact ⟨h.tracked, hself, hs, hoverdue⟩
      · right
        omega
    · intro c hc
      simp only [Function.update_self]
      exact h.dead c hc
  · apply h.of_eq
    · simp only [Function.update_of_ne hqr]
    · simp only [Function.update_of_ne hqr]
    · simp only [Function.update_of_ne hqr]
    · simp only [Function.update_of_ne hqr]
    · exact le_rfl
    · rfl
    · exact fun s hs => hs

theorem Notices.transmit (h : Notices T g p q) (hpaced : Paced T members g) {r : ReplicaID}
    {s : ℤ} (hs : (r, s) ∈ g.sending) : Notices T (g.transmit members r s) p q := by
  refine ⟨h.tracked, h.late, fun c hc => ⟨?_, (h.dead c hc).2⟩⟩
  intro s' hs'
  rcases List.mem_append.mp hs' with hs' | hs'
  · exact (h.dead c hc).1 s' hs'
  · obtain ⟨q', -, heq⟩ := List.mem_map.mp hs'
    have hrp : r = p := congrArg SentFrame.origin heq
    have hlive := (hpaced.sending _ hs).1.2
    rw [hrp] at hlive
    cases hlive.symm.trans hc

theorem Notices.noteSent (h : Notices T g p q) (r : ReplicaID) (s : ℤ) :
    Notices T (g.noteSent r s) p q := by
  obtain ⟨htracked, hreceived, hsuspected⟩ := noteSent_other g r s q
  refine h.of_eq htracked ?_ ?_ rfl le_rfl rfl (fun _ hs => hs)
  · rw [hreceived]
  · rw [hsuspected]

theorem Notices.deliver (h : Notices T g p q) (hpaced : Paced T members g) (hT : T.Fits)
    (hq : Alive members g q) {f : SentFrame} (hf : f ∈ g.flight) :
    Notices T (g.deliver f) p q := by
  by_cases hpair : f.origin = p ∧ f.dest = q
  · obtain ⟨rfl, rfl⟩ := hpair
    have hlast : ∀ last,
        ((g.deliver f).detector f.dest).lastReceived f.origin = some last → last = g.now := by
      intro last hl
      rw [deliver_self hq.2] at hl
      simpa [Detector.noteReceived] using hl.symm
    refine ⟨?_, ?_, ?_⟩
    · rw [deliver_tracked]
      exact h.tracked
    · intro last hl
      have hsuspicion := hT.suspicion_pos
      have hticked : (g.deliver f).ticked f.dest ≤ g.now := (hpaced.ticked _ hq).1
      have heq := hlast last hl
      exact ⟨heq.le, Or.inr (by omega)⟩
    · intro c hc
      refine ⟨fun s hs => (h.dead c hc).1 s (List.mem_of_mem_erase hs), ?_⟩
      intro last hl
      have hsent := (h.dead c hc).1 f.time hf
      have hdue := (hpaced.flight f hf).2.2
      have heq := hlast last hl
      omega
  · obtain ⟨hreceived, hsuspected⟩ := deliver_other (g := g) (not_and_or.mp hpair)
    exact h.of_eq (deliver_tracked ..) hreceived hsuspected rfl le_rfl rfl
      fun s hs => List.mem_of_mem_erase hs

theorem Notices.crash (h : Notices T g p q) (hpaced : Paced T members g) (hT : T.Fits)
    (r : ReplicaID) : Notices T (g.crash r) p q := by
  by_cases hpr : p = r
  · subst hpr
    refine ⟨h.tracked, h.late, ?_⟩
    intro c hc
    have hnow : c = g.now := by simpa [HeartbeatGroup.crash] using hc.symm
    subst hnow
    refine ⟨fun s hs => (hpaced.flight _ hs).2.1, ?_⟩
    intro last hlast
    exact (h.late last hlast).1.trans (Int.le_add_of_nonneg_right hT.travel)
  · exact h.of_eq rfl rfl rfl rfl le_rfl (Function.update_of_ne hpr ..) fun _ hs => hs

structure Invariant (T : Timing) (members : List ReplicaID) (g : HeartbeatGroup) : Prop
    extends Accurate T members g where
  notices : ∀ p q, p ∈ members → Alive members g q → p ≠ q → Notices T g p q

theorem Invariant.step {a : HeartbeatAction} (h : Invariant T members g) (hT : T.Fits)
    (ha : Timely T members g a) (hs : g.step members a = some g') : Invariant T members g' := by
  have hstep := stepped_of_step hs
  refine ⟨h.toAccurate.step hT ha hstep, ?_⟩
  intro p q hp hq hne
  have hold := h.notices p q hp (alive_of_stepped hstep hq) hne
  cases hstep with
  | pass d =>
    exact hold.of_eq rfl rfl rfl rfl (Int.le_add_of_nonneg_right (Int.natCast_nonneg d)) rfl
      fun _ hs => hs
  | tick hr => exact hold.tick h.paced hne hr
  | submit hr => exact hold.of_eq rfl rfl rfl rfl le_rfl rfl fun _ hs => hs
  | transmit hmem => exact hold.transmit h.paced hmem
  | noteSent hmem => exact hold.noteSent _ _
  | deliver hf => exact hold.deliver h.paced hT hq hf
  | crash hr => exact hold.crash h.paced hT _

theorem invariant_start (hT : T.Fits) (t₀ : ℤ) : Invariant T members (start T members t₀) where
  toAccurate := accurate_start hT t₀
  notices _ _ hp _ _ := notices_start hT hp t₀

/-- In a timely group whose suspicion interval is longer than the quiet interval, the bounds on a
tick and on the two parts of a send, and the travel of a frame together, a live member never
suspects a live one, and suspects a crashed one from a fixed time after the crash on. -/
theorem detection_is_perfect (hT : T.Fits) {t₀ : ℤ}
    (hr : Reach (step members) (Timely T members) (start T members t₀) g)
    (hp : p ∈ members) (hq : Alive members g q) (hne : p ≠ q) :
    (g.crashed p = none → (g.detector q).suspected p = false) ∧
      ∀ c, g.crashed p = some c → c + T.travel + T.suspicion + T.tick ≤ g.now →
        (g.detector q).suspected p = true := by
  have hinv : Invariant T members g :=
    hr.invariant (invariant_start hT t₀) fun _ _ _ h ha hs => h.step hT ha hs
  refine ⟨fun hlive => (hinv.fed p q ⟨hp, hlive⟩ hq hne).trusted, ?_⟩
  intro c hc hlate
  have hnotices := hinv.notices p q hp hq hne
  have hwired := hinv.paced.wired q hq.1
  have hknown := hwired.known p hnotices.tracked (by rwa [hwired.config])
  obtain ⟨last, hlast⟩ := Option.ne_none_iff_exists'.mp hknown
  have hticked := (hinv.paced.ticked q hq).2
  have hheard := (hnotices.dead c hc).2 last hlast
  rcases (hnotices.late last hlast).2 with hs | hlt
  · exact hs
  · omega

/-- The least intervals that fit the bound one for everything else. -/
def tight : Timing := ⟨1, 6, 1, 1, 1⟩

theorem tight_fits : tight.Fits := ⟨by decide, by decide, by decide, by decide, by decide⟩

/-- A member ticks and its heartbeat reaches the other one a moment later. -/
def beat (p q : ReplicaID) (t : ℤ) : List HeartbeatAction :=
  [.tick p, .transmit p t, .noteSent p t, .pass 1, .deliver ⟨p, q, t⟩]

/-- One of two members crashes at the time two. -/
def crashedPeer : List HeartbeatAction :=
  [.pass 1, .tick [2], .transmit [2] 1, .noteSent [2] 1, .tick [1], .transmit [1] 1,
    .noteSent [1] 1, .pass 1, .deliver ⟨[1], [2], 1⟩, .deliver ⟨[2], [1], 1⟩, .crash [2]] ++
  ((List.range 8).flatMap fun i => beat [1] [2] (i + 2)) ++ [.tick [1]]

theorem detection_is_perfect_crashed : ∃ g,
    Reach (step [[1], [2]]) (Timely tight [[1], [2]]) (start tight [[1], [2]] 0) g ∧
      (g.now = 10 ∧ g.crashed [1] = none ∧ g.crashed [2] = some 2) ∧
      (g.detector [1]).suspected [2] = true := by
  have hrun : (execute (step [[1], [2]]) (Timely tight [[1], [2]]) (start tight [[1], [2]] 0)
      crashedPeer).map (fun g => decide (g.now = 10 ∧ g.crashed [1] = none ∧
        g.crashed [2] = some 2)) = some true := by decide +kernel
  obtain ⟨g, -, hr, hg⟩ := reach_of_execute hrun
  have hstate := of_decide_eq_true hg
  obtain ⟨hnow, hlive, hcrashed⟩ := hstate
  have hperfect := detection_is_perfect tight_fits hr (p := [2]) (q := [1]) (by decide)
    ⟨by decide, hlive⟩ (by decide)
  refine ⟨g, hr, ⟨hnow, hlive, hcrashed⟩, hperfect.2 2 hcrashed ?_⟩
  rw [hnow]
  decide

end HeartbeatGroup

end Comlink
