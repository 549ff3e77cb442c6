import Mathlib.Data.List.Nodup
import Mathlib.Data.List.Perm.Basic

/-!
# Unstable sorting

A sort that promises only a permutation of its input without inversions. When no
two elements tie the result is determined; elements that do tie may come out in
any order.
-/
namespace Comlink.SortedPermutations

universe u v
variable {α : Type u} {κ : Type v}

/-- `out` is one of the results an unstable sort by `less` may return on `inp`. -/
def IsSortOf (less : α → α → Prop) (inp out : List α) : Prop :=
  out.Perm inp ∧ out.Pairwise (fun a b => ¬ less b a)

instance (less : α → α → Prop) [DecidableEq α] [∀ a b, Decidable (less a b)]
    (inp out : List α) : Decidable (IsSortOf less inp out) :=
  inferInstanceAs (Decidable (_ ∧ _))

variable {less : α → α → Prop} {inp inp' out out' : List α}

theorem IsSortOf.mem_iff (h : IsSortOf less inp out) {a : α} : a ∈ out ↔ a ∈ inp :=
  h.1.mem_iff

/-- Without ties every permitted result is the same list. -/
theorem IsSortOf.unique (h : IsSortOf less inp out) (h' : IsSortOf less inp' out')
    (hp : inp.Perm inp')
    (tie : ∀ a ∈ inp, ∀ b ∈ inp, ¬ less a b → ¬ less b a → a = b) : out = out' := by
  refine List.Perm.eq_of_pairwise ?_ h.2 h'.2 (h.1.trans (hp.trans h'.1.symm))
  intro a b ha hb hab hba
  exact tie a (h.mem_iff.mp ha) b (hp.mem_iff.mpr (h'.mem_iff.mp hb)) hba hab

/-- A strictly smaller element stands before a larger one wherever the latter occurs. -/
theorem IsSortOf.mem_of_less (h : IsSortOf less inp out) {a b : α} (ha : a ∈ inp)
    (hless : less a b) (hirr : ¬ less b b) {pre post : List α} (he : out = pre ++ b :: post) :
    a ∈ pre := by
  have hm : a ∈ out := h.mem_iff.mpr ha
  rw [he, List.mem_append, List.mem_cons] at hm
  have hs := h.2
  rw [he, List.pairwise_append, List.pairwise_cons] at hs
  rcases hm with hm | rfl | hm
  · exact hm
  · exact absurd hless hirr
  · exact absurd hless (hs.2.1.1 a hm)

end Comlink.SortedPermutations
