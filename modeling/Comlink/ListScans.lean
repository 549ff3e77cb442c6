import Mathlib.Data.List.Induction
import Mathlib.Data.List.Infix
import Mathlib.Data.List.Nodup
import Mathlib.Data.Nat.Basic
import Mathlib.Order.MinMax

/-!
# Scans over a list

Two loops that recur throughout: a running maximum that starts at zero, and the
position of the last element that matches, which is what an index overwritten by
later entries remembers. Then what stands at a position after an update of the list, and
relations between each member and those before it.
-/
namespace Comlink.ListScans

universe u
variable {α : Type u}

theorem getElem?_set_cases {xs : List α} {i j : ℕ} {a c : α} (h : (xs.set i a)[j]? = some c) :
    j = i ∧ c = a ∨ j ≠ i ∧ xs[j]? = some c := by
  by_cases hji : j = i
  · subst hji
    obtain ⟨hlt, heq⟩ := List.getElem?_eq_some_iff.mp h
    rw [List.getElem_set_self] at heq
    exact Or.inl ⟨rfl, heq.symm⟩
  · rw [List.getElem?_set_ne (Ne.symm hji)] at h
    exact Or.inr ⟨hji, h⟩

theorem getElem?_set_of_some {xs : List α} {i : ℕ} {a : α} (h : xs[i]? = some a) (b : α) :
    (xs.set i b)[i]? = some b :=
  List.getElem?_set_self (List.getElem?_eq_some_iff.mp h).1

theorem getElem?_modify_cases {xs : List α} {i j : ℕ} {f : α → α} {c : α}
    (h : (xs.modify i f)[j]? = some c) :
    (j = i ∧ ∃ a, xs[i]? = some a ∧ c = f a) ∨ j ≠ i ∧ xs[j]? = some c := by
  rw [List.getElem?_modify] at h
  obtain ⟨a, ha, hc⟩ := Option.map_eq_some_iff.mp h
  by_cases hji : i = j
  · subst hji
    rw [if_pos rfl] at hc
    exact Or.inl ⟨rfl, a, ha, hc.symm⟩
  · rw [if_neg hji] at hc
    exact Or.inr ⟨Ne.symm hji, hc ▸ ha⟩

theorem getElem?_concat_cases {xs : List α} {j : ℕ} {a c : α} (h : (xs ++ [a])[j]? = some c) :
    xs[j]? = some c ∨ j = xs.length ∧ c = a := by
  rcases Nat.lt_trichotomy j xs.length with hlt | rfl | hgt
  · rw [List.getElem?_append_left hlt] at h
    exact Or.inl h
  · rw [List.getElem?_concat_length] at h
    exact Or.inr ⟨rfl, (Option.some.inj h).symm⟩
  · rw [List.getElem?_eq_none (by simp; omega)] at h
    cases h

/-- A loop that keeps the largest number seen so far. -/
def runningMax (xs : List ℕ) : ℕ := xs.foldl (fun m x => if x > m then x else m) 0

private theorem foldl_le_iff (xs : List ℕ) (m b : ℕ) :
    xs.foldl (fun m x => if x > m then x else m) m ≤ b ↔ m ≤ b ∧ ∀ x ∈ xs, x ≤ b := by
  induction xs generalizing m with
  | nil => simp
  | cons a xs ih =>
    rw [List.foldl_cons, ih, List.forall_mem_cons]
    split <;> constructor <;> rintro ⟨h, h'⟩ <;> refine ⟨by omega, ?_⟩
    · exact ⟨h, h'⟩
    · exact h'.2
    · exact ⟨by omega, h'⟩
    · exact h'.2

theorem runningMax_le_iff (xs : List ℕ) (b : ℕ) : runningMax xs ≤ b ↔ ∀ x ∈ xs, x ≤ b := by
  rw [runningMax, foldl_le_iff]
  simp

theorem le_runningMax {xs : List ℕ} {x : ℕ} (h : x ∈ xs) : x ≤ runningMax xs :=
  (runningMax_le_iff xs _).mp (Nat.le_refl _) x h

private theorem foldl_mem (xs : List ℕ) (m : ℕ) :
    xs.foldl (fun m x => if x > m then x else m) m = m ∨
      xs.foldl (fun m x => if x > m then x else m) m ∈ xs := by
  induction xs generalizing m with
  | nil => exact Or.inl rfl
  | cons a xs ih =>
    rw [List.foldl_cons]
    split
    · rcases ih a with h | h
      · exact Or.inr (List.mem_cons.mpr (Or.inl h))
      · exact Or.inr (List.mem_cons_of_mem _ h)
    · exact (ih m).imp_right (List.mem_cons_of_mem _)

theorem runningMax_mem {xs : List ℕ} (h : runningMax xs ≠ 0) : runningMax xs ∈ xs :=
  (foldl_mem xs 0).resolve_left h

/-- In a sublist of a list without duplicates, what stands before an element stands before
it in the whole list. -/
theorem sublist_before {xs ys pre post u v : List α} {y : α} (h : xs.Sublist ys)
    (hn : ys.Nodup) (hxs : xs = u ++ y :: v) (hys : ys = pre ++ y :: post) : u.Sublist pre := by
  subst hxs
  obtain ⟨r, r', rfl, hu, hv⟩ := List.append_sublist_iff.mp h
  have hy : y ∉ r := fun hr => by
    have hr' : y ∈ r' := hv.subset (List.mem_cons_self ..)
    exact (List.nodup_append.mp hn).2.2 y hr y hr' rfl
  rcases List.append_eq_append_iff.mp hys with ⟨c, hc, _⟩ | ⟨c, hc, hc'⟩
  · rw [hc]
    exact hu.trans (List.sublist_append_left r c)
  · cases c with
    | nil =>
      rw [hc, List.append_nil] at hu
      exact hu
    | cons x c =>
      rw [List.cons_append] at hc'
      obtain ⟨rfl, _⟩ := List.cons.inj hc'
      exact absurd (by simp [hc]) hy

/-- A property of every element and those before it, for two lists one after the other. -/
theorem forall_split_append {P : List α → α → Prop} {xs ys : List α}
    (hx : ∀ pre x post, xs = pre ++ x :: post → P pre x)
    (hy : ∀ pre y post, ys = pre ++ y :: post → P (xs ++ pre) y) :
    ∀ pre x post, xs ++ ys = pre ++ x :: post → P pre x := by
  intro pre x post he
  rcases List.append_eq_append_iff.mp he with ⟨zs, rfl, hys⟩ | ⟨zs, hxs, hrest⟩
  · exact hy zs x post hys
  · cases zs with
    | nil =>
      rw [List.append_nil] at hxs
      subst hxs
      simpa using hy [] x post (by simpa using hrest.symm)
    | cons z zs =>
      obtain ⟨rfl, -⟩ := List.cons.inj hrest
      exact hx pre x zs hxs

theorem forall_split_concat {P : List α → α → Prop} {xs : List α} {y : α} :
    (∀ pre x post, xs ++ [y] = pre ++ x :: post → P pre x) ↔
      (∀ pre x post, xs = pre ++ x :: post → P pre x) ∧ P xs y := by
  constructor
  · intro h
    refine ⟨fun pre x post he => h pre x (post ++ [y]) (by simp [he]), h xs y [] rfl⟩
  · rintro ⟨hx, hy⟩
    refine forall_split_append hx ?_
    intro pre z post he
    obtain ⟨rfl, rfl, -⟩ : pre = [] ∧ z = y ∧ post = [] := by
      cases pre with
      | nil => simpa [eq_comm] using he
      | cons w ws => simp at he
    simpa using hy

/-- A relation that holds between each member and all before it. -/
theorem pairwise_of_split {R : α → α → Prop} {xs : List α}
    (h : ∀ pre b post, xs = pre ++ b :: post → ∀ a ∈ pre, R a b) : xs.Pairwise R := by
  induction xs using List.reverseRecOn with
  | nil => exact List.Pairwise.nil
  | append_singleton xs y ih =>
    refine List.pairwise_append.mpr ⟨ih ?_, List.pairwise_singleton .., ?_⟩
    · intro pre b post he
      exact h pre b (post ++ [y]) (by simp [he])
    · intro a ha b hb
      rw [List.mem_singleton.mp hb]
      exact h xs y [] rfl a ha

variable [DecidableEq α]

/-- Position of the last occurrence of `a`. -/
def lastIdxOf (a : α) : List α → Option ℕ
  | [] => none
  | x :: xs => match lastIdxOf a xs with
    | some i => some (i + 1)
    | none => if x = a then some 0 else none

theorem lastIdxOf_getElem? {a : α} {xs : List α} {i : ℕ} (h : lastIdxOf a xs = some i) :
    xs[i]? = some a := by
  induction xs generalizing i with
  | nil => cases h
  | cons x xs ih =>
    rw [lastIdxOf] at h
    cases hl : lastIdxOf a xs with
    | some j =>
      rw [hl] at h
      cases h
      exact ih hl
    | none =>
      rw [hl] at h
      dsimp only at h
      split at h
      · cases h
        simp_all
      · cases h

theorem lastIdxOf_isSome_iff {a : α} {xs : List α} :
    (∃ i, lastIdxOf a xs = some i) ↔ a ∈ xs := by
  constructor
  · rintro ⟨i, hi⟩
    exact List.mem_of_getElem? (lastIdxOf_getElem? hi)
  · induction xs with
    | nil => simp
    | cons x xs ih =>
      intro ha
      rw [lastIdxOf]
      cases hl : lastIdxOf a xs with
      | some j => exact ⟨j + 1, rfl⟩
      | none =>
        rcases List.mem_cons.mp ha with rfl | hm
        · exact ⟨0, if_pos rfl⟩
        · obtain ⟨i, hi⟩ := ih hm
          rw [hl] at hi
          cases hi

/-- Where the matches are unique the last one is the only one. -/
theorem lastIdxOf_eq_of_nodup {a : α} {xs : List α} (hn : xs.Nodup) {i : ℕ}
    (hi : xs[i]? = some a) : lastIdxOf a xs = some i := by
  obtain ⟨j, hj⟩ := lastIdxOf_isSome_iff.mpr (List.mem_of_getElem? hi)
  obtain ⟨hil, hie⟩ := List.getElem?_eq_some_iff.mp hi
  obtain ⟨hjl, hje⟩ := List.getElem?_eq_some_iff.mp (lastIdxOf_getElem? hj)
  have : j = i := (List.Nodup.getElem_inj_iff hn).mp (hje.trans hie.symm)
  rw [hj, this]

/-- Appending another element leaves the last occurrence of `a` where it was. -/
theorem lastIdxOf_concat_ne {a b : α} (hne : b ≠ a) (xs : List α) :
    lastIdxOf a (xs ++ [b]) = lastIdxOf a xs := by
  induction xs with
  | nil => simp [lastIdxOf, hne]
  | cons x xs ih => simp only [List.cons_append, lastIdxOf, ih]

theorem lastIdxOf_concat_self (a : α) (xs : List α) :
    lastIdxOf a (xs ++ [a]) = some xs.length := by
  induction xs with
  | nil => simp [lastIdxOf]
  | cons x xs ih => simp only [List.cons_append, lastIdxOf, ih, List.length_cons]

/-- Dropping all occurrences of an element leaves the others where they are exactly if it
only shortens the list at its end. -/
theorem filter_ne_prefix_iff {a : α} {xs : List α} :
    xs.filter (· ≠ a) <+: xs ↔
      ∀ x ∈ xs, x ≠ a → lastIdxOf x (xs.filter (· ≠ a)) = lastIdxOf x xs := by
  induction xs using List.reverseRecOn with
  | nil => simp
  | append_singleton xs y ih =>
    by_cases hy : y = a
    · subst hy
      have hfilter : (xs ++ [y]).filter (· ≠ y) = xs.filter (· ≠ y) := by simp
      have hshort : xs.filter (· ≠ y) <+: xs ++ [y] ↔ xs.filter (· ≠ y) <+: xs := by
        rw [List.prefix_concat_iff]
        refine or_iff_right fun heq => ?_
        have hin : y ∈ xs.filter (· ≠ y) := by
          rw [heq]
          exact List.mem_append_right xs (List.mem_singleton_self y)
        simp at hin
      rw [hfilter, hshort, ih]
      constructor
      · intro h x hx hne
        rw [lastIdxOf_concat_ne hne.symm]
        refine h x ?_ hne
        simpa [hne] using hx
      · intro h x hx hne
        rw [h x (List.mem_append_left _ hx) hne, lastIdxOf_concat_ne hne.symm]
    · have hfilter : (xs ++ [y]).filter (· ≠ a) = xs.filter (· ≠ a) ++ [y] := by simp [hy]
      rw [hfilter]
      constructor
      · intro hpre
        rcases List.prefix_concat_iff.mp hpre with heq | hpre
        · rw [heq]
          exact fun _ _ _ => rfl
        · have hle := (hpre.filter (· ≠ a)).length_le
          have hkept : (xs.filter (· ≠ a) ++ [y]).filter (· ≠ a) = xs.filter (· ≠ a) ++ [y] := by
            simp [hy]
          rw [hkept, List.length_append, List.length_singleton] at hle
          omega
      · intro h
        have hlast := h y (by simp) hy
        rw [lastIdxOf_concat_self, lastIdxOf_concat_self, Option.some.injEq] at hlast
        rw [List.filter_eq_self.mpr (List.length_filter_eq_length_iff.mp hlast)]

end Comlink.ListScans
