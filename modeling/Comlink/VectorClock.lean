import Comlink.ListScans
import Mathlib.Data.List.GetD

/-!
# Vector clocks under lazy padding

The clocks of `psync/vector.go`. Slot `i` of a clock counts the messages of the
`i`-th participant that the bearer depends on, and a clock shorter than the
membership reads as zero beyond its end. The wave of a message is the largest
entry of its clock.
-/
namespace Comlink

abbrev VectorClock := List ℕ

namespace VectorClock
open ListScans

/-- `at`: the entry at slot `i`, zero beyond the end. -/
def atSlot (v : VectorClock) (i : ℕ) : ℕ := v.getD i 0

/-- `Max`: the componentwise maximum, as long as the longer clock. -/
def max (a b : VectorClock) : VectorClock :=
  (List.range (Max.max a.length b.length)).map fun i => Max.max (a.atSlot i) (b.atSlot i)

/-- `Increment`: a copy of `v` with one slot advanced; `none` is its panic on a
slot out of range. -/
def increment (v : VectorClock) (slot : ℕ) : Option VectorClock :=
  if slot < v.length then some (v.set slot (v.atSlot slot + 1)) else none

def waveOf (v : VectorClock) : ℕ := runningMax v

/-- `Dominates`: no entry of `a` is smaller than that of `b`, and one is larger. -/
def dominates (a b : VectorClock) : Bool :=
  let slots := List.range (Max.max a.length b.length)
  (slots.all fun i => b.atSlot i ≤ a.atSlot i) && slots.any fun i => b.atSlot i < a.atSlot i

def happensBefore (a b : VectorClock) : Bool := dominates b a

/-- Every entry of `v` is at most that of `w`. -/
def Below (v w : VectorClock) : Prop := ∀ i, v.atSlot i ≤ w.atSlot i

theorem Below.refl (v : VectorClock) : Below v v := fun _ => Nat.le_refl _

theorem Below.trans {u v w : VectorClock} (h : Below u v) (h' : Below v w) : Below u w :=
  fun i => (h i).trans (h' i)

theorem atSlot_of_length_le {v : VectorClock} {i : ℕ} (h : v.length ≤ i) : v.atSlot i = 0 :=
  List.getD_eq_default _ _ h

theorem atSlot_eq_getElem {v : VectorClock} {i : ℕ} (h : i < v.length) : v.atSlot i = v[i] :=
  List.getD_eq_getElem _ _ h

@[simp] theorem atSlot_replicate_zero (n i : ℕ) :
    atSlot (List.replicate n 0) i = 0 := by
  rcases Nat.lt_or_ge i n with h | h
  · rw [atSlot_eq_getElem (by simpa using h), List.getElem_replicate]
  · exact atSlot_of_length_le (by simpa using h)

@[simp] theorem length_max (a b : VectorClock) :
    (a.max b).length = Max.max a.length b.length := by simp [max]

@[simp] theorem atSlot_max (a b : VectorClock) (i : ℕ) :
    (a.max b).atSlot i = Max.max (a.atSlot i) (b.atSlot i) := by
  rcases Nat.lt_or_ge i (Max.max a.length b.length) with h | h
  · rw [atSlot_eq_getElem (by simpa using h)]
    simp [max]
  · rw [atSlot_of_length_le (by simpa using h), atSlot_of_length_le ((le_max_left _ _).trans h),
      atSlot_of_length_le ((le_max_right _ _).trans h), Nat.max_self]

theorem increment_eq_some {v w : VectorClock} {slot : ℕ} (h : v.increment slot = some w) :
    slot < v.length ∧ w.length = v.length ∧ w.atSlot slot = v.atSlot slot + 1 ∧
      ∀ i, i ≠ slot → w.atSlot i = v.atSlot i := by
  unfold increment at h
  split at h
  · rename_i hlt
    cases h
    refine ⟨hlt, by simp, ?_, ?_⟩
    · rw [atSlot_eq_getElem (by simpa using hlt), List.getElem_set_self]
    · intro i hi
      simp only [atSlot, List.getD_eq_getElem?_getD, List.getElem?_set_ne (Ne.symm hi)]
  · cases h

theorem below_increment {v w : VectorClock} {slot : ℕ} (h : v.increment slot = some w) :
    Below v w := by
  obtain ⟨_, _, hs, ho⟩ := increment_eq_some h
  intro i
  by_cases hi : i = slot
  · subst hi
    omega
  · exact (ho i hi).ge

theorem happensBefore_iff {a b : VectorClock} :
    happensBefore a b = true ↔ Below a b ∧ ∃ i, a.atSlot i < b.atSlot i := by
  simp only [happensBefore, dominates, Bool.and_eq_true, List.all_eq_true, List.any_eq_true,
    List.mem_range, decide_eq_true_eq]
  constructor
  · rintro ⟨hall, i, _, hi⟩
    refine ⟨fun j => ?_, i, hi⟩
    by_cases hj : j < Max.max b.length a.length
    · exact hall j hj
    · rw [atSlot_of_length_le (by omega)]
      exact Nat.zero_le _
  · rintro ⟨hall, i, hi⟩
    refine ⟨fun j _ => hall j, i, ?_, hi⟩
    by_contra hlen
    rw [atSlot_of_length_le (v := b) (by omega)] at hi
    omega

theorem happensBefore_trans {a b c : VectorClock} (h : happensBefore a b = true)
    (h' : happensBefore b c = true) : happensBefore a c = true := by
  rw [happensBefore_iff] at h h' ⊢
  obtain ⟨hab, i, hi⟩ := h
  exact ⟨hab.trans h'.1, i, hi.trans_le (h'.1 i)⟩

theorem atSlot_le_waveOf (v : VectorClock) (i : ℕ) : v.atSlot i ≤ waveOf v := by
  rcases Nat.lt_or_ge i v.length with h | h
  · rw [atSlot_eq_getElem h]
    exact le_runningMax (List.getElem_mem h)
  · rw [atSlot_of_length_le h]
    exact Nat.zero_le _

theorem Below.waveOf_le {v w : VectorClock} (h : Below v w) : waveOf v ≤ waveOf w := by
  rw [waveOf, runningMax_le_iff]
  intro x hx
  obtain ⟨i, hi, rfl⟩ := List.mem_iff_getElem.mp hx
  rw [← atSlot_eq_getElem hi]
  exact (h i).trans (atSlot_le_waveOf w i)

example : waveOf [2, 5, 3] = 5 := by decide

end VectorClock
end Comlink
