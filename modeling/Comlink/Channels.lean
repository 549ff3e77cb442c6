import Mathlib.Data.List.Basic

/-!
# Buffered channels

A channel of bounded capacity with the history of what its readers have taken. An offer is a
send that gives up when the buffer is full; on a closed channel it has no result, which
stands for the panic of a send there. Readers drain a closed channel.
-/
namespace Comlink

universe u

structure Chan (α : Type u) where
  capacity : ℕ
  taken : List α
  queue : List α
  closed : Bool
  deriving DecidableEq, Repr

namespace Chan
variable {α : Type u} {c c' : Chan α} {a : α}

def make (capacity : ℕ) : Chan α := ⟨capacity, [], [], false⟩

/-- Everything that was ever put into the channel, in order. -/
def accepted (c : Chan α) : List α := c.taken ++ c.queue

def offer (c : Chan α) (a : α) : Option (Chan α) :=
  if c.closed then none
  else if c.queue.length < c.capacity then some { c with queue := c.queue ++ [a] }
  else some c

def take (c : Chan α) : Option (α × Chan α) :=
  match c.queue with
  | [] => none
  | a :: rest => some (a, { c with taken := c.taken ++ [a], queue := rest })

def close (c : Chan α) : Chan α := { c with closed := true }

@[simp] theorem accepted_make (n : ℕ) : (make n : Chan α).accepted = [] := rfl
@[simp] theorem closed_make (n : ℕ) : (make n : Chan α).closed = false := rfl
@[simp] theorem accepted_close (c : Chan α) : c.close.accepted = c.accepted := rfl
@[simp] theorem closed_close (c : Chan α) : c.close.closed = true := rfl
@[simp] theorem capacity_close (c : Chan α) : c.close.capacity = c.capacity := rfl

theorem offer_eq_none_iff : c.offer a = none ↔ c.closed = true := by
  unfold offer
  cases c.closed <;> simp
  split <;> simp

theorem closed_of_offer (h : c.offer a = some c') : c'.closed = c.closed := by
  unfold offer at h
  split at h
  · cases h
  · split at h <;> cases h <;> rfl

/-- An offer is taken in at the end or not at all. -/
theorem accepted_of_offer (h : c.offer a = some c') :
    c'.accepted = c.accepted ++ [a] ∨ c'.accepted = c.accepted := by
  unfold offer at h
  split at h
  · cases h
  · split at h
    · cases h
      left
      simp [accepted]
    · cases h
      right
      rfl

theorem accepted_of_offer_room (h : c.offer a = some c') (hroom : c.queue.length < c.capacity) :
    c'.accepted = c.accepted ++ [a] := by
  unfold offer at h
  split at h
  · cases h
  · cases h
    simp [accepted]

theorem accepted_of_take (h : c.take = some (a, c')) : c'.accepted = c.accepted := by
  unfold take at h
  split at h
  · cases h
  · rename_i b rest hq
    obtain ⟨rfl, rfl⟩ := Prod.mk.inj (Option.some.inj h)
    simp [accepted, hq]

theorem closed_of_take (h : c.take = some (a, c')) : c'.closed = c.closed := by
  unfold take at h
  split at h
  · cases h
  · obtain ⟨rfl, rfl⟩ := Prod.mk.inj (Option.some.inj h)
    rfl

theorem mem_accepted_of_take (h : c.take = some (a, c')) : a ∈ c.accepted := by
  unfold take at h
  split at h
  · cases h
  · rename_i b rest hq
    obtain ⟨rfl, rfl⟩ := Prod.mk.inj (Option.some.inj h)
    simp [accepted, hq]

end Chan
end Comlink
