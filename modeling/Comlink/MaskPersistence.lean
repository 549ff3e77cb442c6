import Mathlib.Data.List.Sort
import Comlink.FileLog
import Comlink.StorageDurability

/-!
# The mask survives restarts

`psync.Mask` keeps the replicas whose messages are ignored, in memory and under one key of the
stable storage. It is run here over the storage in files, with failing system calls, kills and
power losses, and loaded again after each of these. How a mask is encoded is a parameter.

A `Put` that fails after its rename has changed the file although the mask takes the change
back in memory. A call that finds nothing to do in memory returns without a write, so that its
success says nothing about the file. What was written with success is not lost.
-/
namespace Comlink

open GuardedRuns

/-! ### `MaskState` -/

/-- The encoding of a `MaskState`, of which only the round trip is known. -/
structure MaskCodec where
  marshal : List ReplicaID → Stable.Bytes
  unmarshal : Stable.Bytes → Option (List ReplicaID)
  unmarshal_marshal : ∀ masked, unmarshal (marshal masked) = some masked

namespace UnaryBytes

def getReplicas : ℕ → List UInt8 → Option (List ReplicaID)
  | 0, _ => some []
  | n + 1, bs => (getOption bs).bind fun r =>
    (getReplicas n r.2).map fun rs => r.1.getD [] :: rs

@[simp] theorem getReplicas_flatMap (rs : List ReplicaID) :
    getReplicas rs.length (rs.flatMap fun r => putOption (some r)) = some rs := by
  induction rs with
  | nil => rfl
  | cons r rs ih => simp [getReplicas, ih]

end UnaryBytes

section Unary
open UnaryBytes

/-- A small codec: the number of replicas, then each of them with its length. -/
def MaskCodec.unary : MaskCodec where
  marshal masked := putNat masked.length ++ masked.flatMap fun r => putOption (some r)
  unmarshal data := (getNat data).bind fun n => getReplicas n.1 n.2
  unmarshal_marshal masked := by simp

end Unary

/-! ### The mask -/

inductive MaskRequest where
  | maskout (replica : ReplicaID)
  | maskin (replica : ReplicaID)
  deriving DecidableEq, Repr

namespace MaskRequest

def replica : MaskRequest → ReplicaID
  | .maskout r | .maskin r => r

/-- The request that takes back another one. -/
def opposite : MaskRequest → MaskRequest
  | .maskout r => .maskin r
  | .maskin r => .maskout r

/-- What the request is for. -/
def Shows (masked : List ReplicaID) : MaskRequest → Prop
  | .maskout r => r ∈ masked
  | .maskin r => r ∉ masked

instance decidableShows (masked : List ReplicaID) (q : MaskRequest) :
    Decidable (q.Shows masked) :=
  match q with
  | .maskout r => inferInstanceAs (Decidable (r ∈ masked))
  | .maskin r => inferInstanceAs (Decidable (r ∉ masked))

def apply (masked : List ReplicaID) : MaskRequest → List ReplicaID
  | .maskout r => r :: masked
  | .maskin r => masked.filter (· ≠ r)

theorem shows_apply (masked : List ReplicaID) (q : MaskRequest) : q.Shows (q.apply masked) := by
  cases q <;> simp [Shows, apply]

/-- Another request keeps what this one is for, unless it is the opposite one. -/
theorem Shows.apply {masked : List ReplicaID} {q other : MaskRequest} (h : q.Shows masked)
    (hne : other ≠ q.opposite) : q.Shows (other.apply masked) := by
  cases q with
  | maskout r =>
    cases other with
    | maskout r' => exact List.mem_cons_of_mem r' h
    | maskin r' =>
      have hr : r ≠ r' := by
        rintro rfl
        exact hne rfl
      exact List.mem_filter.mpr ⟨h, by simpa using hr⟩
  | maskin r =>
    cases other with
    | maskout r' =>
      have hr : r ≠ r' := by
        rintro rfl
        exact hne rfl
      exact fun hmem => (List.mem_cons.mp hmem).elim hr h
    | maskin r' => exact fun hmem => h (List.mem_filter.mp hmem).1

theorem shows_congr {xs ys : List ReplicaID} (h : ∀ r, r ∈ xs ↔ r ∈ ys) (q : MaskRequest) :
    q.Shows xs ↔ q.Shows ys := by
  cases q <;> simp [Shows, h]

end MaskRequest

/-! ### The process -/

inductive MaskPhase where
  | down
  | loading
  | up (masked : List ReplicaID)
  /-- `persistLocked` is running; an error goes back to the old mask. -/
  | persisting (q : MaskRequest) (old : List ReplicaID)
  deriving DecidableEq, Repr

structure MaskHost where
  file : Stable.File
  phase : MaskPhase
  /-- The requests that returned, and whether without an error. -/
  returned : List (MaskRequest × Bool)

inductive MaskAction where
  | load
  | ask (q : MaskRequest)
  /-- A system call of the storage, or its `Close`. -/
  | file (act : Stable.Action)
  | kill
  | crash (c : CrashDisk.Crash String UInt8)

namespace MaskHost

def maskStorageKey : Stable.Key := "psync.mask"

/-- `bytes.Compare` does not put the first argument after the second one. -/
def notAfter : ReplicaID → ReplicaID → Bool
  | [], _ => true
  | _ :: _, [] => false
  | a :: as, b :: bs => if a = b then notAfter as bs else a.toNat < b.toNat

def sorted (masked : List ReplicaID) : List ReplicaID :=
  masked.insertionSort fun a b => notAfter a b = true

/-- What `persistLocked` writes. -/
def persisted (C : MaskCodec) (masked : List ReplicaID) : Stable.Bytes :=
  C.marshal (sorted masked)

def loaded (state : List ReplicaID) : List ReplicaID := state.foldl (fun m r => m.insert r) []

/-- The storage has returned when it is idle again. -/
def advance (C : MaskCodec) (h : MaskHost) : MaskHost :=
  if h.file.pc = .idle then
    match h.phase with
    | .loading =>
      match h.file.results.getLast? with
      | some (_, .value data) =>
        match C.unmarshal data with
        | none => { h with phase := .down }
        | some state => { h with phase := .up (loaded state) }
      | some (_, .errNotFound) => { h with phase := .up [] }
      | _ => { h with phase := .down }
    | .persisting q old =>
      match h.file.results.getLast? with
      | some (_, .done) =>
        { h with phase := .up (q.apply old), returned := h.returned ++ [(q, true)] }
      | _ => { h with phase := .up old, returned := h.returned ++ [(q, false)] }
    | .down | .up _ => h
  else h

def new : MaskHost := ⟨.new, .down, []⟩

def step (C : MaskCodec) (h : MaskHost) : MaskAction → Option MaskHost
  | .load =>
    match h.phase with
    | .down =>
      (h.file.step (.call (.get maskStorageKey))).map fun f =>
        advance C { h with file := f, phase := .loading }
    | _ => none
  | .ask q =>
    match h.phase with
    | .up masked =>
      if q.Shows masked then some { h with returned := h.returned ++ [(q, true)] }
      else
        (h.file.step (.call (.put maskStorageKey (persisted C (q.apply masked))))).map fun f =>
          advance C { h with file := f, phase := .persisting q masked }
    | _ => none
  | .file (.call _) | .file .kill | .file (.crash _) => none
  | .file act => (h.file.step act).map fun f => advance C { h with file := f }
  | .kill => (h.file.step .kill).map fun f => { h with file := f, phase := .down }
  | .crash c => (h.file.step (.crash c)).map fun f => { h with file := f, phase := .down }

end MaskHost

/-! ### The storage call behind a phase -/

def MaskPhase.call (C : MaskCodec) : MaskPhase → Option Stable.Call
  | .down | .up _ => none
  | .loading => some (.get MaskHost.maskStorageKey)
  | .persisting q old => some (.put MaskHost.maskStorageKey (MaskHost.persisted C (q.apply old)))

namespace MaskHost

variable {C : MaskCodec} {h h' : MaskHost} {a : Stable.Values}

theorem mem_loaded (state : List ReplicaID) (r : ReplicaID) : r ∈ loaded state ↔ r ∈ state := by
  have hfold : ∀ m : List ReplicaID,
      r ∈ state.foldl (fun m r => m.insert r) m ↔ r ∈ m ∨ r ∈ state := by
    induction state with
    | nil => simp
    | cons x xs ih =>
      intro m
      rw [List.foldl_cons, ih, List.mem_insert_iff, List.mem_cons]
      tauto
  simpa [loaded] using hfold []

theorem shows_loaded {masked : List ReplicaID} {q : MaskRequest} :
    q.Shows (loaded (sorted masked)) ↔ q.Shows masked := by
  apply MaskRequest.shows_congr
  intro r
  rw [mem_loaded, sorted, List.mem_insertionSort]

/-- The storage is busy with the call that the mask waits for. -/
def Linked (C : MaskCodec) (h : MaskHost) : Prop := h.file.pc.call = h.phase.call C

theorem linked_advance {f : Stable.File} {phase : MaskPhase} {returned : List (MaskRequest × Bool)}
    (hcall : f.pc.call = phase.call C ∨ f.pc = .idle) :
    Linked C (advance C ⟨f, phase, returned⟩) := by
  unfold advance
  by_cases hidle : f.pc = .idle
  · rw [if_pos hidle]
    have hnone : f.pc.call = none := Stable.File.call_eq_none.mpr hidle
    cases phase with
    | down | up => exact hnone
    | loading =>
      dsimp only
      split
      · split <;> exact hnone
      · exact hnone
      · exact hnone
    | persisting q old =>
      dsimp only
      split <;> exact hnone
  · rw [if_neg hidle]
    exact hcall.resolve_right hidle

/-- The steps of the process. -/
inductive Stepped (C : MaskCodec) (h : MaskHost) : MaskAction → MaskHost → Prop
  | load {f : Stable.File} (hphase : h.phase = .down)
      (hf : h.file.step (.call (.get maskStorageKey)) = some f) :
      Stepped C h .load (advance C ⟨f, .loading, h.returned⟩)
  | known {q : MaskRequest} {masked : List ReplicaID} (hphase : h.phase = .up masked)
      (hshows : q.Shows masked) :
      Stepped C h (.ask q) ⟨h.file, .up masked, h.returned ++ [(q, true)]⟩
  | ask {q : MaskRequest} {masked : List ReplicaID} {f : Stable.File}
      (hphase : h.phase = .up masked)
      (hf : h.file.step (.call (.put maskStorageKey (persisted C (q.apply masked)))) = some f) :
      Stepped C h (.ask q) (advance C ⟨f, .persisting q masked, h.returned⟩)
  | file {act : Stable.Action} {f : Stable.File} (hcall : ∀ c, act ≠ .call c) (hkill : act ≠ .kill)
      (hcrash : ∀ c, act ≠ .crash c) (hf : h.file.step act = some f) :
      Stepped C h (.file act) (advance C ⟨f, h.phase, h.returned⟩)
  | stop {mact : MaskAction} {act : Stable.Action} {f : Stable.File} (hcall : ∀ c, act ≠ .call c)
      (hf : h.file.step act = some f) (hidle : f.pc = .idle) :
      Stepped C h mact ⟨f, .down, h.returned⟩

theorem stepped_of_step {act : MaskAction} (hstep : h.step C act = some h') :
    Stepped C h act h' := by
  cases act with
  | load =>
    cases hphase : h.phase <;> simp [step, hphase] at hstep
    obtain ⟨f, hf, rfl⟩ := hstep
    exact .load hphase hf
  | ask q =>
    cases hphase : h.phase <;> simp only [step, hphase, reduceCtorEq] at hstep
    rename_i masked
    split at hstep
    · obtain rfl : _ = h' := Option.some.inj hstep
      exact .known hphase ‹_›
    · obtain ⟨f, hf, rfl⟩ := Option.map_eq_some_iff.mp hstep
      exact .ask hphase hf
  | file act =>
    cases act <;> simp only [step, reduceCtorEq] at hstep
    all_goals
      obtain ⟨f, hf, rfl⟩ := Option.map_eq_some_iff.mp hstep
      exact .file (by simp) (by simp) (by simp) hf
  | kill =>
    simp only [step] at hstep
    obtain ⟨f, hf, rfl⟩ := Option.map_eq_some_iff.mp hstep
    refine .stop (show ∀ c', (.kill : Stable.Action) ≠ .call c' by simp) hf ?_
    obtain rfl : _ = f := Option.some.inj hf
    rfl
  | crash c =>
    simp only [step] at hstep
    obtain ⟨f, hf, rfl⟩ := Option.map_eq_some_iff.mp hstep
    refine .stop (show ∀ c', (.crash c : Stable.Action) ≠ .call c' by simp) hf ?_
    obtain rfl : _ = f := Option.some.inj hf
    rfl

/-- The storage goes on with the call of the phase, or has returned. -/
theorem call_or_returned {f : Stable.File} {act : Stable.Action} {phase : MaskPhase}
    (hf : h.file.step act = some f) (hkill : act ≠ .kill) (hcrash : ∀ c, act ≠ .crash c)
    (hcall : h.file.pc.call = phase.call C ∧ (∀ c, act ≠ .call c) ∨
      ∃ c, act = .call c ∧ phase.call C = some c) :
    (f.pc.call = phase.call C ∨ f.pc = .idle) ∧
      (f.pc = .idle → ∀ c, phase.call C = some c →
        ∃ r, f.results = h.file.results ++ [(c, r)]) := by
  have hstep := Stable.File.stepped_of_step hf
  cases hphase : phase.call C with
  | none =>
    refine ⟨?_, by simp⟩
    rcases hcall with ⟨hnone, hno⟩ | ⟨c, -, hsome⟩
    · left
      cases hc : f.pc.call with
      | none => rfl
      | some c =>
        rcases Stable.File.call_of_stepped hstep hc with hold | ⟨hact, -⟩
        · rw [hnone, hphase] at hold
          cases hold
        · exact absurd hact (hno c)
    · rw [hphase] at hsome
      cases hsome
  | some c =>
    have hc : h.file.pc.call = some c ∨ act = .call c := by
      rcases hcall with ⟨hsame, -⟩ | ⟨c', hact, hsome⟩
      · exact .inl (hsame.trans hphase)
      · rw [hphase] at hsome
        cases hsome
        exact .inr hact
    rcases Stable.File.call_or_returned hstep hc hkill hcrash with hgoes | ⟨hidle, r, hr⟩
    · refine ⟨.inl hgoes, ?_⟩
      intro hidle
      rw [Stable.File.call_eq_none.mpr hidle] at hgoes
      cases hgoes
    · refine ⟨.inr hidle, ?_⟩
      rintro - _ ⟨⟩
      exact ⟨r, hr⟩

theorem Linked.step {act : MaskAction} (hl : Linked C h) (hstep : Stepped C h act h') :
    Linked C h' := by
  cases hstep with
  | load hphase hf =>
    exact linked_advance (call_or_returned hf (by simp) (by simp) (.inr ⟨_, rfl, rfl⟩)).1
  | known hphase hshows =>
    rw [Linked, hphase] at hl
    exact hl
  | ask hphase hf =>
    exact linked_advance (call_or_returned hf (by simp) (by simp) (.inr ⟨_, rfl, rfl⟩)).1
  | file hcall hkill hcrash hf =>
    exact linked_advance (call_or_returned hf hkill hcrash (.inl ⟨hl, hcall⟩)).1
  | stop hcall hf hidle => exact Stable.File.call_eq_none.mpr hidle

theorem advance_file (C : MaskCodec) (h : MaskHost) : (advance C h).file = h.file := by
  unfold advance
  split
  · split
    · split
      · split <;> rfl
      · rfl
      · rfl
    · split <;> rfl
    · rfl
    · rfl
  · rfl

/-- The storage takes one of its own steps, or none. -/
theorem file_of_stepped {act : MaskAction} (hstep : Stepped C h act h') :
    h'.file = h.file ∨ ∃ act, h.file.step act = some h'.file := by
  cases hstep with
  | load hphase hf | ask hphase hf | file _ _ _ hf =>
    exact .inr ⟨_, by rw [advance_file]; exact hf⟩
  | known hphase hshows => exact .inl rfl
  | stop hcall hf hidle => exact .inr ⟨_, hf⟩

/-- What holds before any request was acknowledged. -/
theorem linked_reach {h : MaskHost} (hr : Reach (step C) (fun _ _ => True) new h) :
    Linked C h ∧ ∃ a, Stable.File.Genuine h.file a := by
  apply hr.invariant (P := fun h => Linked C h ∧ ∃ a, Stable.File.Genuine h.file a)
    ⟨rfl, _, Stable.File.genuine_new⟩
  rintro s act t ⟨hlinked, a, hgenuine⟩ - hstep
  refine ⟨hlinked.step (stepped_of_step hstep), ?_⟩
  rcases file_of_stepped (stepped_of_step hstep) with hsame | ⟨fact, hf⟩
  · exact ⟨a, hsame ▸ hgenuine⟩
  · exact ⟨_, hgenuine.step (Stable.File.stepped_of_step hf)⟩

/-! ### What was written is not lost -/

/-- The states of the file that show what a request is for. -/
def Written (C : MaskCodec) (q : MaskRequest) (data : Option Stable.Bytes) : Prop :=
  ∃ masked, data = some (persisted C masked) ∧ q.Shows masked

/-- The masks of a phase show what the request is for, and go on to do so. -/
def Keeps (q : MaskRequest) : MaskPhase → Prop
  | .down | .loading => True
  | .up masked => q.Shows masked
  | .persisting other old => q.Shows old ∧ other ≠ q.opposite

/-- Since `s` every mask that the process has or could load shows what the request is for. -/
structure Kept (C : MaskCodec) (q : MaskRequest) (s h : MaskHost) : Prop where
  linked : Linked C h
  confined : ∃ a, Stable.File.Confined maskStorageKey (Written C q) s.file h.file a
  phase : Keeps q h.phase

theorem plain_maskStorageKey : Stable.Plain maskStorageKey := by decide

/-- The mask after the storage has taken a step. -/
theorem Kept.advance {q : MaskRequest} {s : MaskHost} {f : Stable.File} {act : Stable.Action}
    {phase : MaskPhase} {returned : List (MaskRequest × Bool)} (hk : Kept C q s h)
    (hlinked : Linked C (advance C ⟨f, phase, returned⟩)) (hf : h.file.step act = some f)
    (hresults : f.pc = .idle → ∀ c, phase.call C = some c →
      ∃ r, f.results = h.file.results ++ [(c, r)])
    (hallowed : ∀ c, act = .call c → Stable.File.Allowed maskStorageKey (Written C q) c)
    (hphase : Keeps q phase) :
    Kept C q s (MaskHost.advance C ⟨f, phase, returned⟩) := by
  obtain ⟨a, ha⟩ := hk.confined
  have hb := ha.step plain_maskStorageKey hallowed (Stable.File.stepped_of_step hf)
  refine ⟨hlinked, ⟨_, by rw [advance_file]; exact hb⟩, ?_⟩
  by_cases hidle : f.pc = .idle
  · cases phase with
    | down | up => simpa [MaskHost.advance, hidle] using hphase
    | loading =>
      obtain ⟨r, hr⟩ := hresults hidle _ rfl
      have hlast : f.results.getLast? = some (.get maskStorageKey, r) := by simp [hr]
      rcases ha.last_read hb hr with ⟨y, ⟨masked, rfl, hshows⟩, rfl⟩ | rfl | rfl
      · simp only [MaskHost.advance, hidle, if_true, hlast, Stable.answer, persisted,
          C.unmarshal_marshal]
        exact shows_loaded.mpr hshows
      · simp [MaskHost.advance, hidle, hlast, Keeps]
      · simp [MaskHost.advance, hidle, hlast, Keeps]
    | persisting other old =>
      obtain ⟨r, hr⟩ := hresults hidle _ rfl
      obtain ⟨hshows, hne⟩ := hphase
      by_cases hdone : r = .done
      · simpa [MaskHost.advance, hidle, hr, hdone, Keeps] using hshows.apply hne
      · simpa [MaskHost.advance, hidle, hr, hdone, Keeps] using hshows
  · simpa [MaskHost.advance, hidle] using hphase

/-- A run in which the request is not taken back. -/
def Stands (q : MaskRequest) (_ : MaskHost) (act : MaskAction) : Prop := act ≠ .ask q.opposite

theorem Kept.step {q : MaskRequest} {s : MaskHost} {act : MaskAction} (hk : Kept C q s h)
    (hstands : Stands q h act) (hstep : Stepped C h act h') : Kept C q s h' := by
  have hlinked := hk.linked.step hstep
  have hphase' := hk.phase
  cases hstep with
  | load hphase hf =>
    refine hk.advance hlinked hf ?_ ?_ trivial
    · exact (call_or_returned hf (by simp) (by simp) (.inr ⟨_, rfl, rfl⟩)).2
    · rintro _ ⟨⟩ - hwrites
      exact hwrites.elim
  | @known other masked hphase hshows =>
    rw [hphase] at hphase'
    exact ⟨hlinked, hk.confined, hphase'⟩
  | @ask other masked f hphase hf =>
    rw [hphase] at hphase'
    have hne : other ≠ q.opposite := by
      rintro rfl
      exact hstands rfl
    refine hk.advance hlinked hf ?_ ?_ ⟨hphase', hne⟩
    · exact (call_or_returned hf (by simp) (by simp) (.inr ⟨_, rfl, rfl⟩)).2
    · rintro _ ⟨⟩ - -
      exact ⟨_, rfl, MaskRequest.Shows.apply hphase' hne⟩
  | file hcall hkill hcrash hf =>
    refine hk.advance hlinked hf ?_ (fun c hc => absurd hc (hcall c)) hphase'
    exact (call_or_returned hf hkill hcrash (.inl ⟨hk.linked, hcall⟩)).2
  | stop hcall hf hidle =>
    obtain ⟨a, ha⟩ := hk.confined
    exact ⟨hlinked, ⟨_, ha.step plain_maskStorageKey (fun c hc => absurd hc (hcall c))
      (Stable.File.stepped_of_step hf)⟩, trivial⟩

theorem kept_of_written {q : MaskRequest} {old : List ReplicaID} {act : MaskAction}
    {s s' : MaskHost}
    (hlinked : Linked C s) (hgenuine : Stable.File.Genuine s.file a)
    (hphase : s.phase = .persisting q old)
    (hstep : Stepped C s act s') (hlinked' : Linked C s')
    (hok : s'.returned = s.returned ++ [(q, true)]) : Kept C q s' s' := by
  cases hstep with
  | load hphase' hf | known hphase' hshows | ask hphase' hf =>
    rw [hphase] at hphase'
    cases hphase'
  | stop hcall hf hidle => simp at hok
  | @file fact f hcall hkill hcrash hf =>
    by_cases hidle : f.pc = .idle
    · obtain ⟨r, hr⟩ :=
        (call_or_returned hf hkill hcrash (.inl ⟨hlinked, hcall⟩)).2 hidle _
          (by rw [hphase]; rfl)
      by_cases hdone : r = .done
      · subst hdone
        have hconfined := Stable.File.confined_of_done (Q := Written C q) hgenuine
          (Stable.File.stepped_of_step hf) hr
          ⟨_, rfl, q.shows_apply old⟩
        refine ⟨hlinked', ⟨_, by rw [advance_file]; exact hconfined⟩, ?_⟩
        simpa [advance, hidle, hr, hphase, Keeps] using q.shows_apply old
      · simp [advance, hidle, hr, hphase, hdone] at hok
    · simp [advance, hidle] at hok

instance decidableStands (q : MaskRequest) (h : MaskHost) (act : MaskAction) :
    Decidable (Stands q h act) :=
  match act with
  | .ask other =>
    if heq : other = q.opposite then .isFalse (fun hne => hne (heq ▸ rfl))
    else .isTrue (fun h => heq (MaskAction.ask.inj h))
  | .load | .file _ | .kill | .crash _ => .isTrue (fun h => by cases h)

/-- The system calls of a `Put` from the creation of its file to the sync of the directory. -/
def putCalls (suffix : ℕ) : List MaskAction :=
  [.file (.createTemp (some suffix)), .file (.write none)] ++
    List.replicate 5 (.file (.system true))

end MaskHost

end Comlink
