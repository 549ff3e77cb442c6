import Comlink.GuardedRuns
import Comlink.KvConvergence

/-!
# Sweeps of the key-value store

A sweep drops the tombstones below the least wave that was seen of any member. Each run is
compared with the run of the same messages without the sweeps. A sweep may come between any
two messages, and between the two critical sections of `Apply`. The two stores differ in
nothing but tombstones that one of them lacks, and every message that is still to come is
above these.
-/
namespace Comlink.Store
open GuardedRuns GreatestTag
open Cluster (replicaOf)

variable {U : BatchDecoder} {s s₀ : Store} {msg : Message}

/-- A store with sweeps beside one without them. A message in flight has passed the first
critical section of `Apply` and is before the second. -/
structure Sweeping where
  swept : Store
  plain : Store
  inFlight : Option (Message × List Command)
  received : List Message
  sweeps : List (List ReplicaID)

inductive SweepAction where
  | receive (msg : Message)
  | mutate
  | sweep (members : List ReplicaID)

namespace Sweeping

def start (s : Store) : Sweeping := ⟨s, s, none, [], []⟩

/-- `Apply` up to the end of its first critical section, unless it returns before. -/
def receive (U : BatchDecoder) (r : Sweeping) (msg : Message) : Sweeping :=
  match U msg.payload with
  | none => { r with received := r.received ++ [msg] }
  | some cmds =>
    if cmds.isEmpty then { r with received := r.received ++ [msg] }
    else
      { r with
        swept := r.swept.noteWave msg
        plain := r.plain.noteWave msg
        inFlight := some (msg, cmds)
        received := r.received ++ [msg] }

def step (U : BatchDecoder) (r : Sweeping) : SweepAction → Option Sweeping
  | .receive msg => if r.inFlight.isSome then none else some (r.receive U msg)
  | .mutate => r.inFlight.map fun p =>
    { r with
      swept := r.swept.applyBatch p.1 p.2
      plain := r.plain.applyBatch p.1 p.2
      inFlight := none }
  | .sweep members => some
    { r with swept := r.swept.gcTombstones members, sweeps := members :: r.sweeps }

/-- The waves of a sender never decrease, and a sweep knows every member whose messages are
not applied yet. -/
def Allowed (r : Sweeping) : SweepAction → Prop
  | .receive msg => (∀ m ∈ r.received, m.sender = msg.sender → m.wave ≤ msg.wave) ∧
      ∀ members ∈ r.sweeps, msg.sender ∈ members
  | .mutate => True
  | .sweep members => ∀ p ∈ r.inFlight, p.1.sender ∈ members

instance (r : Sweeping) (a : SweepAction) : Decidable (r.Allowed a) :=
  match a with
  | .receive _ => inferInstanceAs (Decidable (_ ∧ _))
  | .mutate => isTrue trivial
  | .sweep _ => inferInstanceAs (Decidable (∀ p ∈ _, _))

end Sweeping

section Data

variable {old : Entry → Prop} {d d' : String → Option Entry}

/-- One map is another without some tombstones, all of them old. -/
def Lacks (old : Entry → Prop) (d d' : String → Option Entry) : Prop :=
  ∀ k, d k = d' k ∨ (d k = none ∧ ∃ e, d' k = some e ∧ e.deleted = true ∧ old e)

theorem Lacks.mono {old' : Entry → Prop} (h : Lacks old d d') (ho : ∀ e, old e → old' e) :
    Lacks old' d d' := by
  intro k
  rcases h k with heq | ⟨hnone, e, he, hdel, hold⟩
  · exact Or.inl heq
  · exact Or.inr ⟨hnone, e, he, hdel, ho e hold⟩

theorem Lacks.live (h : Lacks old d d') (k : String) :
    (d k).bind Entry.live = (d' k).bind Entry.live := by
  rcases h k with heq | ⟨hnone, e, he, hdel, -⟩
  · rw [heq]
  · simp [hnone, he, Entry.live, hdel]

/-- An entry above an old one takes its place, as if there were nothing. -/
theorem win_of_swept {e inc : Entry} (h : e.wave < inc.wave) : win (some e) inc = true := by
  rw [win_some, not_lt, Entry.tag, Entry.tag, Prod.Lex.toLex_le_toLex]
  exact Or.inl h

theorem Lacks.install {ev : List Evt} (h : Lacks old d d') {inc : Entry}
    (hold : ∀ e, old e → e.wave < inc.wave) (op : Op) (key val : String) :
    Lacks old (install (d, ev) op key val inc).1 (install (d', ev) op key val inc).1 ∧
      (Store.install (d, ev) op key val inc).2 = (Store.install (d', ev) op key val inc).2 := by
  simp only [install_eq]
  rcases h key with heq | ⟨hnone, e, he, hdel, ho⟩
  · refine ⟨fun k => ?_, by rw [heq]⟩
    by_cases hk : k = key
    · subst hk
      exact Or.inl (by rw [put_self, put_self, heq])
    · rw [put_of_ne hk, put_of_ne hk]
      exact h k
  · have hwin := win_of_swept (hold e ho)
    have hfirst : win none inc = true := rfl
    refine ⟨fun k => ?_, by simp [hnone, he, hadLive, hdel, hwin, hfirst]⟩
    by_cases hk : k = key
    · subst hk
      refine Or.inl ?_
      rw [put_self, put_self, hnone, he, keep, keep, if_neg (win_some.mp hwin)]
    · rw [put_of_ne hk, put_of_ne hk]
      exact h k

theorem Lacks.applyCommand {envWave : ℕ} (h : Lacks old d d')
    (hold : ∀ e, old e → e.wave < envWave) (origin : List UInt8) (ev : List Evt) (c : Command) :
    Lacks old (applyCommand envWave origin (d, ev) c).1
        (Store.applyCommand envWave origin (d', ev) c).1 ∧
      (Store.applyCommand envWave origin (d, ev) c).2 =
        (Store.applyCommand envWave origin (d', ev) c).2 := by
  unfold Store.applyCommand
  cases c.op with
  | set => exact h.install hold _ _ _
  | delete => exact h.install hold _ _ _
  | ack => exact ⟨h, rfl⟩
  | other => exact ⟨h, rfl⟩

theorem foldl_applyCommand_lacks {envWave : ℕ} (hold : ∀ e, old e → e.wave < envWave)
    (origin : List UInt8) (cmds : List Command) {st st' : Scratch} (h : Lacks old st.1 st'.1)
    (hev : st.2 = st'.2) :
    Lacks old (cmds.foldl (applyCommand envWave origin) st).1
        (cmds.foldl (applyCommand envWave origin) st').1 ∧
      (cmds.foldl (applyCommand envWave origin) st).2 =
        (cmds.foldl (applyCommand envWave origin) st').2 := by
  induction cmds generalizing st st' with
  | nil => exact ⟨h, hev⟩
  | cons c cmds ih =>
    obtain ⟨d, ev⟩ := st
    obtain ⟨d', ev'⟩ := st'
    cases hev
    have hc := h.applyCommand hold origin ev c
    exact ih hc.1 hc.2

/-- A batch above all that is missing has the same effect on both maps. -/
theorem Lacks.foldl_applyCommand {envWave : ℕ} (h : Lacks old d d')
    (hold : ∀ e, old e → e.wave < envWave) (origin : List UInt8) (cmds : List Command) :
    Lacks old (cmds.foldl (Store.applyCommand envWave origin) (d, [])).1
        (cmds.foldl (Store.applyCommand envWave origin) (d', [])).1 ∧
      (cmds.foldl (Store.applyCommand envWave origin) (d, [])).2 =
        (cmds.foldl (Store.applyCommand envWave origin) (d', [])).2 := by
  apply foldl_applyCommand_lacks hold origin cmds
  · exact h
  · rfl

end Data

section Sweep

theorem le_of_safeWave {seen : ReplicaID → ℕ} {least safe : ℕ} {members : List ReplicaID}
    (h : safeWave seen least members = some safe) :
    safe ≤ least ∧ ∀ p ∈ members, safe ≤ seen p := by
  induction members generalizing least with
  | nil =>
    cases h
    simp
  | cons m ms ih =>
    unfold safeWave at h
    by_cases hz : seen m = 0
    · rw [if_pos hz] at h
      cases h
    · rw [if_neg hz] at h
      obtain ⟨hle, hall⟩ := ih h
      have hboth : safe ≤ seen m ∧ safe ≤ least := by
        by_cases hlt : seen m < least
        · rw [if_pos hlt] at hle
          omega
        · rw [if_neg hlt] at hle
          omega
      exact ⟨hboth.2, List.forall_mem_cons.mpr ⟨hboth.1, hall⟩⟩

end Sweep

section Stores

variable {old : Entry → Prop} {t u : Store}

/-- One store is another without some tombstones, all of them old. -/
def Lags (old : Entry → Prop) (s t : Store) : Prop :=
  ∃ d, s = { t with data := d } ∧ Lacks old d t.data

theorem Lags.refl (old : Entry → Prop) (s : Store) : Lags old s s :=
  ⟨s.data, rfl, fun _ => Or.inl rfl⟩

theorem Lags.trans (h : Lags old s t) (h' : Lags old t u) : Lags old s u := by
  obtain ⟨d, rfl, hd⟩ := h
  obtain ⟨d', rfl, hd'⟩ := h'
  refine ⟨d, rfl, fun k => ?_⟩
  rcases hd k with heq | ⟨hnone, e, he, hrest⟩
  · rw [heq]
    exact hd' k
  · rcases hd' k with heq | ⟨hnone', -⟩
    · exact Or.inr ⟨hnone, e, heq.symm.trans he, hrest⟩
    · cases hnone'.symm.trans he

theorem Lags.mono {old' : Entry → Prop} (h : Lags old s t) (ho : ∀ e, old e → old' e) :
    Lags old' s t := by
  obtain ⟨d, hd, hlacks⟩ := h
  exact ⟨d, hd, hlacks.mono ho⟩

theorem Lags.peerWaveSeen (h : Lags old s t) : s.peerWaveSeen = t.peerWaveSeen := by
  obtain ⟨d, rfl, -⟩ := h
  rfl

theorem Lags.notified (h : Lags old s t) : s.notified = t.notified := by
  obtain ⟨d, rfl, -⟩ := h
  rfl

theorem Lags.get (h : Lags old s t) (key : String) : s.get key = t.get key := by
  obtain ⟨d, rfl, hlacks⟩ := h
  exact hlacks.live key

theorem Lags.noteWave (h : Lags old s t) (msg : Message) :
    Lags old (s.noteWave msg) (t.noteWave msg) := by
  obtain ⟨d, rfl, hlacks⟩ := h
  refine ⟨d, ?_, by rwa [data_noteWave]⟩
  unfold Store.noteWave
  split <;> rfl

/-- A batch above all that is missing does the same to both stores. -/
theorem Lags.applyBatch (h : Lags old s t) (hold : ∀ e, old e → e.wave < msg.wave)
    (cmds : List Command) : Lags old (s.applyBatch msg cmds) (t.applyBatch msg cmds) := by
  obtain ⟨d, rfl, hlacks⟩ := h
  have hfold := hlacks.foldl_applyCommand hold (senderArr msg.sender) cmds
  unfold Store.applyBatch
  by_cases hack : (cmds.all fun c => c.op = .ack) = true
  · rw [if_pos hack, if_pos hack]
    exact ⟨d, rfl, hlacks⟩
  · rw [if_neg hack, if_neg hack]
    refine ⟨_, ?_, hfold.1⟩
    simp only [hfold.2]

/-- A sweep takes nothing but tombstones below the waves of all members. -/
theorem lags_gcTombstones (s : Store) (members : List ReplicaID) :
    Lags (fun e => ∀ p ∈ members, e.wave < s.peerWaveSeen p) (s.gcTombstones members) s := by
  unfold gcTombstones
  split
  · exact Lags.refl _ s
  · split
    · exact Lags.refl _ s
    · rename_i safe hsafe
      split
      · exact Lags.refl _ s
      · refine ⟨_, rfl, fun k => ?_⟩
        cases hk : s.data k with
        | none => exact Or.inl rfl
        | some e =>
          by_cases he : e.deleted = true ∧ e.wave < safe
          · refine Or.inr ⟨by simp [he], e, rfl, he.1, fun p hp => ?_⟩
            exact he.2.trans_le ((le_of_safeWave hsafe).2 p hp)
          · exact Or.inl (by rw [Option.filter_some, if_pos (by rwa [decide_eq_true_iff])])

end Stores

namespace Sweeping

variable {r r' : Sweeping}

/-- Some sweep has seen waves above the entry from all of its members. -/
def Dropped (r : Sweeping) (e : Entry) : Prop :=
  ∃ members ∈ r.sweeps, ∀ p ∈ members, e.wave < r.plain.peerWaveSeen p

/-- What relates the two stores of a run. -/
structure Shadows (r : Sweeping) : Prop where
  lags : Lags r.Dropped r.swept r.plain
  seen : ∀ p, r.plain.peerWaveSeen p = 0 ∨
    ∃ m ∈ r.received, m.sender = p ∧ m.wave = r.plain.peerWaveSeen p
  flight : ∀ p ∈ r.inFlight, r.plain.peerWaveSeen p.1.sender = p.1.wave ∧
    ∀ members ∈ r.sweeps, p.1.sender ∈ members

theorem shadows_start (h : ∀ p, s.peerWaveSeen p = 0) : (start s).Shadows where
  lags := Lags.refl _ s
  seen p := Or.inl (h p)
  flight p hp := by cases hp

theorem peerWaveSeen_noteWave (h : s.peerWaveSeen msg.sender ≤ msg.wave) :
    (s.noteWave msg).peerWaveSeen = Function.update s.peerWaveSeen msg.sender msg.wave := by
  unfold noteWave
  by_cases hlt : s.peerWaveSeen msg.sender < msg.wave
  · rw [if_pos hlt]
  · have heq : s.peerWaveSeen msg.sender = msg.wave := by omega
    rw [if_neg hlt, ← heq, Function.update_eq_self]

theorem peerWaveSeen_applyBatch (s : Store) (msg : Message) (cmds : List Command) :
    (s.applyBatch msg cmds).peerWaveSeen = s.peerWaveSeen := by
  unfold applyBatch
  split <;> rfl

/-- A message that is let in is not below what was seen of its sender. -/
theorem Shadows.seen_le (h : r.Shadows) (ha : r.Allowed (.receive msg)) :
    r.plain.peerWaveSeen msg.sender ≤ msg.wave := by
  rcases h.seen msg.sender with hz | ⟨m, hm, hsender, hwave⟩
  · omega
  · rw [← hwave]
    exact ha.1 m hm hsender

theorem Shadows.ignore (h : r.Shadows) (msg : Message) :
    Shadows { r with received := r.received ++ [msg] } where
  lags := h.lags
  seen p := by
    rcases h.seen p with hz | ⟨m, hm, hw⟩
    · exact Or.inl hz
    · exact Or.inr ⟨m, List.mem_append_left _ hm, hw⟩
  flight := h.flight

theorem Shadows.noteWave (h : r.Shadows) (ha : r.Allowed (.receive msg)) (cmds : List Command) :
    Shadows { r with
      swept := r.swept.noteWave msg
      plain := r.plain.noteWave msg
      inFlight := some (msg, cmds)
      received := r.received ++ [msg] } := by
  have hle := h.seen_le ha
  have hseen := peerWaveSeen_noteWave hle
  refine ⟨?_, ?_, ?_⟩
  · refine (h.lags.noteWave msg).mono fun e ⟨members, hm, hall⟩ => ⟨members, hm, fun p hp => ?_⟩
    have hlt := hall p hp
    simp only [hseen]
    by_cases hps : p = msg.sender
    · subst hps
      rw [Function.update_self]
      omega
    · rwa [Function.update_of_ne hps]
  · intro p
    simp only [hseen]
    by_cases hps : p = msg.sender
    · subst hps
      exact Or.inr ⟨msg, by simp, rfl, by rw [Function.update_self]⟩
    · rw [Function.update_of_ne hps]
      exact (h.ignore msg).seen p
  · intro p hp
    cases hp
    exact ⟨by simp [hseen], ha.2⟩

theorem Shadows.receive (h : r.Shadows) (ha : r.Allowed (.receive msg)) :
    (r.receive U msg).Shadows := by
  unfold Sweeping.receive
  split
  · exact h.ignore msg
  · split
    · exact h.ignore msg
    · exact h.noteWave ha _

theorem Shadows.mutate (h : r.Shadows) {p : Message × List Command} (hp : r.inFlight = some p) :
    Shadows { r with
      swept := r.swept.applyBatch p.1 p.2
      plain := r.plain.applyBatch p.1 p.2
      inFlight := none } := by
  obtain ⟨hwave, hmember⟩ := h.flight p hp
  have hold : ∀ e, r.Dropped e → e.wave < p.1.wave := by
    intro e ⟨members, hm, hall⟩
    rw [← hwave]
    exact hall _ (hmember members hm)
  have hseen := peerWaveSeen_applyBatch r.plain p.1 p.2
  refine ⟨?_, ?_, fun q hq => by cases hq⟩
  · refine (h.lags.applyBatch hold p.2).mono fun e he => ?_
    simpa only [Dropped, hseen] using he
  · simpa only [hseen] using h.seen

theorem Shadows.sweep (h : r.Shadows) {members : List ReplicaID}
    (ha : r.Allowed (.sweep members)) :
    Shadows { r with swept := r.swept.gcTombstones members, sweeps := members :: r.sweeps } := by
  refine ⟨?_, h.seen, ?_⟩
  · have hgc := lags_gcTombstones r.swept members
    rw [h.lags.peerWaveSeen] at hgc
    refine (hgc.mono fun e he => ?_).trans (h.lags.mono fun e he => ?_)
    · exact ⟨members, by simp, he⟩
    · obtain ⟨ms, hms, hall⟩ := he
      exact ⟨ms, List.mem_cons_of_mem _ hms, hall⟩
  · intro p hp
    exact ⟨(h.flight p hp).1, List.forall_mem_cons.mpr ⟨ha p hp, (h.flight p hp).2⟩⟩

theorem Shadows.step {a : SweepAction} (h : r.Shadows) (ha : r.Allowed a)
    (hs : r.step U a = some r') : r'.Shadows := by
  cases a with
  | receive msg =>
    rw [Sweeping.step] at hs
    split at hs
    · cases hs
    · cases hs
      exact h.receive ha
  | mutate =>
    obtain ⟨p, hp, rfl⟩ := Option.map_eq_some_iff.mp hs
    exact h.mutate hp
  | sweep members =>
    cases hs
    exact h.sweep ha

/-- The store without sweeps has applied the messages one after the other; the last of them
may be halfway. -/
def Unswept (U : BatchDecoder) (s : Store) (r : Sweeping) : Prop :=
  match r.inFlight with
  | none => r.plain = r.received.foldl (apply U) s
  | some p => r.plain.applyBatch p.1 p.2 = r.received.foldl (apply U) s

theorem Unswept.receive (h : r.Unswept U s) (hidle : r.inFlight = none) (msg : Message) :
    (r.receive U msg).Unswept U s := by
  have hplain : r.plain = r.received.foldl (apply U) s := by simpa [Unswept, hidle] using h
  unfold Sweeping.receive
  cases hU : U msg.payload with
  | none => simp [Unswept, hidle, hplain, apply, hU]
  | some cmds =>
    cases cmds with
    | nil => simp [Unswept, hidle, hplain, apply, hU]
    | cons c cmds => simp [Unswept, hplain, apply, hU]

theorem Unswept.step {a : SweepAction} (h : r.Unswept U s) (hs : r.step U a = some r') :
    r'.Unswept U s := by
  cases a with
  | receive msg =>
    rw [Sweeping.step] at hs
    split at hs
    · cases hs
    · rename_i hidle
      cases hs
      exact h.receive (by simpa using hidle) msg
  | mutate =>
    obtain ⟨p, hp, rfl⟩ := Option.map_eq_some_iff.mp hs
    simpa [Unswept, hp] using h
  | sweep members =>
    cases hs
    exact h

/-- Sweeps cannot be seen: at every moment the store answers each `Get` as the store of the
run without sweeps, and it has sent its watchers the same events. -/
theorem sweeps_are_invisible (h₀ : ∀ p, s₀.peerWaveSeen p = 0)
    (hr : Reach (step U) Allowed (start s₀) r) :
    (∀ key, r.swept.get key = r.plain.get key) ∧ r.swept.notified = r.plain.notified ∧
      r.Unswept U s₀ := by
  have hshadows : r.Shadows :=
    hr.invariant (shadows_start h₀) fun _ _ _ h ha hs => h.step ha hs
  have hunswept : r.Unswept U s₀ :=
    hr.invariant (P := Unswept U s₀) rfl fun _ _ _ h _ hs => h.step hs
  exact ⟨hshadows.lags.get, hshadows.lags.notified, hunswept⟩

/-- A tombstone of the wave two is dropped while a message of the wave four, which sets the
key again, is in flight. -/
def sweptInFlight : List SweepAction :=
  [.receive ⟨⟨none, none, []⟩, [1], replicaOf 1, 1, 1⟩, .mutate,
    .receive ⟨⟨none, none, []⟩, [0], replicaOf 2, 2, 2⟩, .mutate,
    .receive ⟨⟨none, none, []⟩, [3], replicaOf 2, 3, 3⟩, .mutate,
    .receive ⟨⟨none, none, []⟩, [2], replicaOf 1, 4, 4⟩, .sweep [replicaOf 1, replicaOf 2]]

theorem sweeps_are_invisible_inFlight :
    ∃ r, Reach (step byteCommands) Allowed (start (new (replicaOf 1) true)) r ∧
      (r.swept.data "k" = none ∧ r.plain.data "k" = some ⟨"", 2, replicaOf 2, true⟩) ∧
      (∀ key, r.swept.get key = r.plain.get key) ∧ r.swept.notified = r.plain.notified ∧
      r.Unswept byteCommands (new (replicaOf 1) true) := by
  have hrun : (execute (step byteCommands) Allowed (start (new (replicaOf 1) true))
      sweptInFlight).map (fun r => decide (r.swept.data "k" = none ∧
        r.plain.data "k" = some ⟨"", 2, replicaOf 2, true⟩)) = some true := by decide +kernel
  obtain ⟨r, -, hr, hp⟩ := reach_of_execute hrun
  exact ⟨r, hr, of_decide_eq_true hp, sweeps_are_invisible (fun _ => rfl) hr⟩

end Sweeping

end Comlink.Store
