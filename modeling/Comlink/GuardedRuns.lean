import Mathlib.Logic.Function.Basic
import Mathlib.Logic.Relation

/-!
# Guarded runs of a partial step function

A system is a partial step function `step : σ → α → Option σ` on states and
actions. A guard `ok` restricts which action may be taken in which state; the
guard `fun _ _ => True` leaves every run. Reachability is the reflexive transitive
closure of the guarded steps, and `execute` replays a literal list of actions.
-/
namespace Comlink.GuardedRuns

universe u v w
variable {σ : Type u} {α : Type v} {step : σ → α → Option σ} {ok ok' : σ → α → Prop}

/-- One step of the system by an action that the guard admits. -/
def Step (step : σ → α → Option σ) (ok : σ → α → Prop) (s t : σ) : Prop :=
  ∃ a, ok s a ∧ step s a = some t

/-- Every state reached from `s` by steps that all satisfy the guard. -/
def Reach (step : σ → α → Option σ) (ok : σ → α → Prop) : σ → σ → Prop :=
  Relation.ReflTransGen (Step step ok)

/-- A property that holds at the start and survives every guarded step holds in
every state of every guarded run. -/
theorem Reach.invariant {P : σ → Prop} {s t : σ} (hr : Reach step ok s t) (hs : P s)
    (preserves : ∀ s a t, P s → ok s a → step s a = some t → P t) : P t := by
  induction hr with
  | refl => exact hs
  | tail _ h ih =>
    obtain ⟨a, ha, hstep⟩ := h
    exact preserves _ a _ ih ha hstep

/-- A transitive relation between two moments of a run follows from its steps. -/
theorem Reach.relation {R : σ → σ → Prop} {s t : σ} (hr : Reach step ok s t)
    (refl : ∀ s, R s s) (trans : ∀ a b c, R a b → R b c → R a c)
    (single : ∀ s a t, ok s a → step s a = some t → R s t) : R s t := by
  induction hr with
  | refl => exact refl _
  | tail _ h ih =>
    obtain ⟨a, ha, hstep⟩ := h
    exact trans _ _ _ ih (single _ a _ ha hstep)

theorem Reach.mono {s t : σ} (hr : Reach step ok s t) (h : ∀ s a, ok s a → ok' s a) :
    Reach step ok' s t := by
  induction hr with
  | refl => exact .refl
  | tail _ hstep ih =>
    obtain ⟨a, ha, hstep⟩ := hstep
    exact ih.tail ⟨a, h _ a ha, hstep⟩

/-- Every step of one system is a step of another one on the same states. -/
theorem Reach.simulate {β : Type w} {step' : σ → β → Option σ} {ok' : σ → β → Prop} {s t : σ}
    (hr : Reach step ok s t)
    (h : ∀ s a t, ok s a → step s a = some t → ∃ b, ok' s b ∧ step' s b = some t) :
    Reach step' ok' s t := by
  induction hr with
  | refl => exact .refl
  | tail _ hstep ih =>
    obtain ⟨a, ha, hstep⟩ := hstep
    exact ih.tail (h _ a _ ha hstep)

/-- A guard that is only known to hold where an invariant does. -/
theorem Reach.strengthen {P : σ → Prop} {s t : σ} (hr : Reach step ok s t) (hs : P s)
    (preserves : ∀ s a t, P s → ok s a → step s a = some t → P t)
    (h : ∀ s a, P s → ok s a → ok' s a) : Reach step ok' s t ∧ P t := by
  induction hr with
  | refl => exact ⟨.refl, hs⟩
  | tail _ hstep ih =>
    obtain ⟨a, ha, hstep⟩ := hstep
    exact ⟨ih.1.tail ⟨a, h _ a ih.2 ha, hstep⟩, preserves _ a _ ih.2 ha hstep⟩

/-- Where a state is a family of components, a step that changes one of them keeps what
holds of the others. -/
theorem forall_mem_update {ι β : Type} [DecidableEq ι] {is : List ι} {P : ι → β → Prop}
    {f : ι → β} {i : ι} {x : β} (h : ∀ j ∈ is, P j (f j)) (hx : i ∈ is → P i x) :
    ∀ j ∈ is, P j (Function.update f i x j) := by
  intro j hj
  by_cases hji : j = i
  · subst hji
    rw [Function.update_self]
    exact hx hj
  · rw [Function.update_of_ne hji]
    exact h j hj

/-- Replay a literal list of actions, checking the guard at each of them. -/
def execute (step : σ → α → Option σ) (ok : σ → α → Prop) [∀ s a, Decidable (ok s a)] :
    σ → List α → Option σ
  | s, [] => some s
  | s, a :: as => if ok s a then (step s a).bind (fun t => execute step ok t as) else none

theorem execute_cons [∀ s a, Decidable (ok s a)] {a : α} {as : List α} {s u : σ}
    (h : execute step ok s (a :: as) = some u) :
    ok s a ∧ ∃ t, step s a = some t ∧ execute step ok t as = some u := by
  by_cases ha : ok s a
  · simp only [execute, if_pos ha, Option.bind_eq_some_iff] at h
    exact ⟨ha, h⟩
  · simp [execute, ha] at h

/-- A guard on the actions alone can be checked on the trace. -/
theorem execute_reach_of_forall [∀ s a, Decidable (ok s a)] {P : α → Prop} (as : List α) {s t : σ}
    (h : execute step ok s as = some t) (hP : ∀ a ∈ as, P a) :
    Reach step (fun s a => ok s a ∧ P a) s t := by
  induction as generalizing s with
  | nil =>
    cases h
    exact .refl
  | cons a as ih =>
    obtain ⟨hPa, hPas⟩ := List.forall_mem_cons.mp hP
    obtain ⟨ha, u, hu, hrest⟩ := execute_cons h
    exact (Relation.ReflTransGen.single ⟨a, ⟨ha, hPa⟩, hu⟩).trans (ih hrest hPas)

theorem execute_reach [∀ s a, Decidable (ok s a)] (as : List α) {s t : σ}
    (h : execute step ok s as = some t) : Reach step ok s t :=
  (execute_reach_of_forall (P := fun _ => True) as h fun _ _ => trivial).mono fun _ _ hok => hok.1

/-- A replayed trace whose last state passes a check is a reachable such state. -/
theorem reach_of_execute [∀ s a, Decidable (ok s a)] {s : σ} {as : List α} {p : σ → Bool}
    (h : (execute step ok s as).map p = some true) :
    ∃ t, execute step ok s as = some t ∧ Reach step ok s t ∧ p t = true := by
  cases hr : execute step ok s as with
  | none => simp [hr] at h
  | some t =>
    simp only [hr, Option.map_some, Option.some.injEq] at h
    exact ⟨t, rfl, execute_reach as hr, h⟩

end Comlink.GuardedRuns
