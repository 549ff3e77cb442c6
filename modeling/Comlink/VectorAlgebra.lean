import Comlink.VectorClock
import Mathlib.Order.Lattice

/-!
# The order of clocks of different lengths

A clock stands for a function on all slots that is zero beyond its end. `Equal`,
`HappensBefore` and `Max` of `psync/vector.go` compare and combine these functions: they
are equality, the strict pointwise order and the pointwise supremum. What holds of
functions then holds of clocks of any lengths.
-/
namespace Comlink.VectorClock

/-- `Equal`: no difference in the slots of the longer clock. -/
def equal (a b : VectorClock) : Bool :=
  (List.range (Max.max a.length b.length)).all fun i => a.atSlot i == b.atSlot i

/-- `Concurrent`: neither dominates the other, and they differ. -/
def concurrent (a b : VectorClock) : Bool := !dominates a b && !dominates b a && !equal a b

/-- The entries of a clock in all slots. -/
def entries (v : VectorClock) : ℕ → ℕ := fun i => v.atSlot i

variable {a b c a' b' : VectorClock}

@[simp] theorem entries_max (a b : VectorClock) : entries (a.max b) = entries a ⊔ entries b := by
  funext i
  simp [entries]

theorem equal_iff : equal a b = true ↔ entries a = entries b := by
  simp only [equal, List.all_eq_true, List.mem_range, beq_iff_eq]
  constructor
  · intro h
    funext i
    by_cases hi : i < Max.max a.length b.length
    · exact h i hi
    · simp only [entries]
      rw [atSlot_of_length_le (by omega), atSlot_of_length_le (by omega)]
  · intro h i _
    exact congrFun h i

theorem happensBefore_iff_lt : happensBefore a b = true ↔ entries a < entries b := by
  rw [happensBefore_iff, Pi.lt_def]
  rfl

theorem dominates_iff_lt : dominates a b = true ↔ entries b < entries a := happensBefore_iff_lt

theorem concurrent_iff :
    concurrent a b = true ↔ ¬ entries a ≤ entries b ∧ ¬ entries b ≤ entries a := by
  simp only [concurrent, Bool.and_eq_true, Bool.not_eq_true', ← Bool.not_eq_true,
    dominates_iff_lt, equal_iff]
  constructor
  · rintro ⟨⟨hba, hab⟩, hne⟩
    exact ⟨fun h => hab (lt_of_le_of_ne h hne), fun h => hba (lt_of_le_of_ne h (Ne.symm hne))⟩
  · rintro ⟨hab, hba⟩
    exact ⟨⟨fun h => hba h.le, fun h => hab h.le⟩, fun h => hab h.le⟩

/-- The clocks are equal, or the first one happens before the second. -/
def AtMost (a b : VectorClock) : Prop := equal a b = true ∨ happensBefore a b = true

theorem atMost_iff : AtMost a b ↔ entries a ≤ entries b := by
  rw [AtMost, equal_iff, happensBefore_iff_lt, le_iff_eq_or_lt]

theorem equal_equivalence : Equivalence fun a b : VectorClock => equal a b = true where
  refl _ := equal_iff.mpr rfl
  symm h := equal_iff.mpr (equal_iff.mp h).symm
  trans h h' := equal_iff.mpr ((equal_iff.mp h).trans (equal_iff.mp h'))

/-- Equal clocks cannot be told apart. -/
theorem respects_equal (ha : equal a a' = true) (hb : equal b b' = true) :
    dominates a b = dominates a' b' ∧ happensBefore a b = happensBefore a' b' ∧
      concurrent a b = concurrent a' b' ∧ equal (a.max b) (a'.max b') = true := by
  rw [equal_iff] at ha hb
  constructor
  · rw [Bool.eq_iff_iff, dominates_iff_lt, dominates_iff_lt, ha, hb]
  constructor
  · rw [Bool.eq_iff_iff, happensBefore_iff_lt, happensBefore_iff_lt, ha, hb]
  constructor
  · rw [Bool.eq_iff_iff, concurrent_iff, concurrent_iff, ha, hb]
  · rw [equal_iff, entries_max, entries_max, ha, hb]

theorem not_happensBefore_self (a : VectorClock) : happensBefore a a = false := by
  rw [← Bool.not_eq_true, happensBefore_iff_lt]
  exact lt_irrefl _

/-- Two clocks are related in one of four ways. -/
theorem count_relations (a b : VectorClock) :
    [equal a b, happensBefore a b, happensBefore b a, concurrent a b].count true = 1 := by
  have heq := equal_iff (a := a) (b := b)
  have hab := happensBefore_iff_lt (a := a) (b := b)
  have hba := happensBefore_iff_lt (a := b) (b := a)
  have hcon := concurrent_iff (a := a) (b := b)
  by_cases hle : entries a ≤ entries b
  · by_cases hge : entries b ≤ entries a
    · have he := le_antisymm hle hge
      simp_all
    · have hlt := lt_of_le_not_ge hle hge
      simp_all [hlt.ne, hlt.not_gt]
  · by_cases hge : entries b ≤ entries a
    · have hlt := lt_of_le_not_ge hge hle
      simp_all [hlt.ne', hlt.not_gt]
    · have hne : entries a ≠ entries b := fun h => hle h.le
      have hlt : ¬ entries a < entries b := fun h => hle h.le
      have hgt : ¬ entries b < entries a := fun h => hge h.le
      simp_all

/-- The maximum of two clocks is at most every clock that both are at most. -/
theorem max_least (a b : VectorClock) :
    AtMost a (a.max b) ∧ AtMost b (a.max b) ∧
      ∀ c, AtMost a c → AtMost b c → AtMost (a.max b) c := by
  simp only [atMost_iff, entries_max]
  exact ⟨le_sup_left, le_sup_right, fun _ => sup_le⟩

/-- The relations of clocks under lazy padding form a partial order up to `Equal`, with
`Max` for the least upper bound, for clocks of any lengths. -/
theorem vector_algebra (a b c : VectorClock) :
    Equivalence (fun a b : VectorClock => equal a b = true) ∧
    (∀ a' b', equal a a' = true → equal b b' = true →
      dominates a b = dominates a' b' ∧ happensBefore a b = happensBefore a' b' ∧
        concurrent a b = concurrent a' b' ∧ equal (a.max b) (a'.max b') = true) ∧
    happensBefore a a = false ∧
    (happensBefore a b = true → happensBefore b c = true → happensBefore a c = true) ∧
    [equal a b, happensBefore a b, happensBefore b a, concurrent a b].count true = 1 ∧
    (AtMost a (a.max b) ∧ AtMost b (a.max b) ∧
      ∀ d, AtMost a d → AtMost b d → AtMost (a.max b) d) ∧
    equal ((a.max b).max c) (a.max (b.max c)) = true ∧
    equal (a.max b) (b.max a) = true ∧ equal (a.max a) a = true := by
  refine ⟨equal_equivalence, fun a' b' => respects_equal, not_happensBefore_self a,
    happensBefore_trans, count_relations a b, max_least a b, ?_, ?_, ?_⟩
  · simp only [equal_iff, entries_max, sup_assoc]
  · simp only [equal_iff, entries_max, sup_comm]
  · simp only [equal_iff, entries_max, sup_idem]

example : concurrent [1, 0, 2] [2] = true := by decide

end Comlink.VectorClock
