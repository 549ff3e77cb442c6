import Mathlib.Data.List.Basic
import Mathlib.Logic.Function.Basic

/-!
# Causal broadcast

Processes send messages to everybody and handle each message at most once. A message
depends on all that its sender had handled or sent before, and a process handles it
only after everything it depends on; nothing else restricts the order. Messages are
known by their position in the history of what was sent.
-/
namespace Comlink.CausalBroadcast

universe u v

structure CastMessage (ι : Type u) (μ : Type v) where
  sender : ι
  body : μ
  deps : List ℕ

structure Cast (ι : Type u) (μ : Type v) where
  sent : List (CastMessage ι μ)
  handled : ι → List ℕ

namespace Cast

variable {ι : Type u} {μ : Type v} [DecidableEq ι]
variable {c c' : Cast ι μ} {p q : ι} {i j : ℕ} {m : CastMessage ι μ} {body : μ}

def empty : Cast ι μ := ⟨[], fun _ => []⟩

/-- The messages that `p` has handled or sent. -/
def known (c : Cast ι μ) (p : ι) : List ℕ :=
  (List.range c.sent.length).filter fun j =>
    j ∈ c.handled p ∨ c.sent[j]?.map CastMessage.sender = some p

def send (c : Cast ι μ) (p : ι) (body : μ) : Cast ι μ :=
  { c with sent := c.sent ++ [⟨p, body, c.known p⟩] }

/-- `p` handles the message at position `i` next. -/
def handle (c : Cast ι μ) (p : ι) (i : ℕ) : Option (CastMessage ι μ × Cast ι μ) :=
  match c.sent[i]? with
  | none => none
  | some m =>
    if i ∉ c.handled p ∧ ∀ j ∈ m.deps, j ∈ c.handled p then
      some (m, { c with handled := Function.update c.handled p (c.handled p ++ [i]) })
    else none

theorem handle_eq_some (h : c.handle p i = some (m, c')) :
    c.sent[i]? = some m ∧ i ∉ c.handled p ∧ (∀ j ∈ m.deps, j ∈ c.handled p) ∧
      c' = { c with handled := Function.update c.handled p (c.handled p ++ [i]) } := by
  unfold handle at h
  split at h
  · cases h
  · rename_i m' hm'
    split at h
    · rename_i hcond
      cases h
      exact ⟨hm', hcond.1, hcond.2, rfl⟩
    · cases h

theorem handle_of_mem (hm : c.sent[i]? = some m) (hi : i ∉ c.handled p)
    (hd : ∀ j ∈ m.deps, j ∈ c.handled p) : c.handle p i =
      some (m, { c with handled := Function.update c.handled p (c.handled p ++ [i]) }) := by
  rw [handle, hm]
  exact if_pos ⟨hi, hd⟩

theorem mem_known (hi : i < c.sent.length) :
    i ∈ c.known p ↔ i ∈ c.handled p ∨ c.sent[i]?.map CastMessage.sender = some p := by
  simp [known, hi]

/-- What a process has handled was sent, and is closed under dependencies. -/
structure Causal (c : Cast ι μ) : Prop where
  bound : ∀ p, ∀ i ∈ c.handled p, i < c.sent.length
  closed : ∀ p, ∀ i ∈ c.handled p, ∀ m, c.sent[i]? = some m → ∀ j ∈ m.deps, j ∈ c.handled p

omit [DecidableEq ι] in
theorem causal_empty : Causal (empty : Cast ι μ) := by
  constructor <;> simp [empty]

theorem getElem?_send (h : i < c.sent.length) : (c.send p body).sent[i]? = c.sent[i]? := by
  rw [send, List.getElem?_append_left h]

theorem Causal.send (h : Causal c) (p : ι) (body : μ) : Causal (c.send p body) := by
  refine ⟨?_, ?_⟩
  · intro q i hi
    have hlt := h.bound q i hi
    simp only [Cast.send, List.length_append, List.length_singleton]
    omega
  · intro q i hi m hm
    rw [getElem?_send (h.bound q i hi)] at hm
    exact h.closed q i hi m hm

theorem mem_handled_update {c : Cast ι μ} :
    j ∈ Function.update c.handled p (c.handled p ++ [i]) q ↔
      j ∈ c.handled q ∨ q = p ∧ j = i := by
  by_cases hq : q = p
  · subst hq
    simp
  · simp [hq]

theorem Causal.handle (h : Causal c) (hs : c.handle p i = some (m, c')) : Causal c' := by
  obtain ⟨hm, _, hdeps, rfl⟩ := handle_eq_some hs
  refine ⟨?_, ?_⟩
  · intro q j hj
    rcases mem_handled_update.mp hj with hj | ⟨rfl, rfl⟩
    · exact h.bound q j hj
    · exact (List.getElem?_eq_some_iff.mp hm).1
  · intro q j hj m' hm' k hk
    refine mem_handled_update.mpr (Or.inl ?_)
    rcases mem_handled_update.mp hj with hj | ⟨rfl, rfl⟩
    · exact h.closed q j hj m' hm' k hk
    · rw [show c.sent[j]? = some m' from hm'] at hm
      cases hm
      exact hdeps k hk

end Cast
end Comlink.CausalBroadcast
