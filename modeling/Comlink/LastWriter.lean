import Mathlib.Data.Finset.Sort
import Mathlib.Data.List.Induction
import Mathlib.Order.Extension.Linear
import Mathlib.Order.RelClasses

/-!
# Maps in which the last write wins

Operations on a map that set or clear at most one key each are applied one after the
other, in an order that respects a strict partial order on them. Two such orders of the
same operations agree on the resulting map if any two operations on one key are ordered or
have the same effect. Two operations that are not ordered can be swapped.
-/
namespace Comlink.LastWriter

universe u v w
variable {α : Type u} {κ : Type v} {β : Type w}

section Orders

variable {r : α → α → Prop} {S : Finset α} {L P : List α} {a b x y : α}

/-- Nothing stands before what it comes after. -/
def Respects (r : α → α → Prop) (L : List α) : Prop := L.Pairwise fun a b => ¬ r b a

/-- An order of a part of `S` that is closed under what comes before its elements. -/
structure Enumerates (r : α → α → Prop) (S : Finset α) (L : List α) : Prop where
  nodup : L.Nodup
  subset : ∀ a ∈ L, a ∈ S
  closed : ∀ a ∈ L, ∀ b ∈ S, r b a → b ∈ L
  respects : Respects r L

theorem Respects.sublist (h : Respects r L) (hs : P.Sublist L) : Respects r P :=
  List.Pairwise.sublist hs h

/-- An element that comes before `a` stands before it. -/
theorem Enumerates.mem_of_rel [Std.Irrefl r] (h : Enumerates r S (P ++ a :: L)) (hb : b ∈ S)
    (hr : r b a) : b ∈ P := by
  have hmem := h.closed a (by simp) b hb hr
  have hpair := h.respects
  rw [Respects, List.pairwise_append, List.pairwise_cons] at hpair
  rcases List.mem_append.mp hmem with hP | hL
  · exact hP
  · rcases List.mem_cons.mp hL with rfl | hL
    · exact absurd hr (irrefl b)
    · exact absurd hr (hpair.2.1.1 b hL)

theorem Enumerates.left [Std.Irrefl r] (h : Enumerates r S (P ++ L)) : Enumerates r S P := by
  refine ⟨h.nodup.of_append_left, fun a ha => h.subset a (List.mem_append_left L ha), ?_, ?_⟩
  · intro a ha b hb hr
    obtain ⟨u, v, rfl⟩ := List.append_of_mem ha
    rw [List.append_assoc] at h
    exact List.mem_append_left _ (h.mem_of_rel hb hr)
  · exact h.respects.sublist (List.sublist_append_left P L)

variable [IsStrictOrder α r]

theorem exists_enumerates (S : Finset α) : ∃ L, Enumerates r S L ∧ ∀ a, a ∈ L ↔ a ∈ S := by
  classical
  let _ : PartialOrder α := partialOrderOfSO r
  obtain ⟨s, hs, hle⟩ := extend_partialOrder ((· ≤ ·) : α → α → Prop)
  have hmem : ∀ a, a ∈ S.sort s ↔ a ∈ S := fun a => Finset.mem_sort s
  have hrespects : Respects r (S.sort s) := by
    refine ((S.pairwise_sort s).and (S.sort_nodup s)).imp ?_
    rintro a b ⟨hab, hne⟩ hba
    exact hne (antisymm hab (hle b a (Or.inr hba)))
  exact ⟨S.sort s, ⟨S.sort_nodup s, fun a ha => (hmem a).mp ha,
    fun a _ b hb _ => (hmem b).mpr hb, hrespects⟩, hmem⟩

/-- After all that comes before `x` or `y` the two may follow, in this order. -/
theorem enumerates_pair (hn : P.Nodup) (hP : ∀ z, z ∈ P ↔ z ∈ S ∧ (r z x ∨ r z y))
    (hr : Respects r P) (hx : x ∈ S) (hy : y ∈ S) (hne : x ≠ y) (hxy : ¬ r x y)
    (hyx : ¬ r y x) : Enumerates r S (P ++ [x, y]) := by
  have hxP : x ∉ P := fun h => ((hP x).mp h).2.elim (irrefl x) hxy
  have hyP : y ∉ P := fun h => ((hP y).mp h).2.elim hyx (irrefl y)
  refine ⟨?_, ?_, ?_, ?_⟩
  · refine List.nodup_append.mpr ⟨hn, by simpa using hne, fun a ha b hb => ?_⟩
    rintro rfl
    rcases List.mem_pair.mp hb with rfl | rfl
    · exact hxP ha
    · exact hyP ha
  · intro a ha
    rcases List.mem_append.mp ha with ha | ha
    · exact ((hP a).mp ha).1
    · rcases List.mem_pair.mp ha with rfl | rfl
      · exact hx
      · exact hy
  · intro a ha b hb hba
    refine List.mem_append_left _ ((hP b).mpr ⟨hb, ?_⟩)
    rcases List.mem_append.mp ha with ha | ha
    · exact ((hP a).mp ha).2.imp (IsTrans.trans b a x hba) (IsTrans.trans b a y hba)
    · rcases List.mem_pair.mp ha with rfl | rfl
      · exact Or.inl hba
      · exact Or.inr hba
  · refine List.pairwise_append.mpr ⟨hr, by simpa using hyx, fun a ha b hb hba => ?_⟩
    rcases List.mem_pair.mp hb with rfl | rfl
    · exact ((hP a).mp ha).2.elim (fun h => asymm h hba) fun h => hxy (IsTrans.trans _ _ _ hba h)
    · exact ((hP a).mp ha).2.elim (fun h => hyx (IsTrans.trans _ _ _ hba h)) fun h => asymm h hba

/-- Two elements that are not ordered may come last, in either order. -/
theorem exists_swap (hx : x ∈ S) (hy : y ∈ S) (hne : x ≠ y) (hxy : ¬ r x y) (hyx : ¬ r y x) :
    ∃ P, Enumerates r S (P ++ [x, y]) ∧ Enumerates r S (P ++ [y, x]) := by
  classical
  obtain ⟨L, hL, hmem⟩ := exists_enumerates (r := r) S
  have hP : ∀ z, z ∈ L.filter (fun z => r z x ∨ r z y) ↔ z ∈ S ∧ (r z x ∨ r z y) := by
    intro z
    rw [List.mem_filter, hmem, decide_eq_true_eq]
  have hr := hL.respects.sublist (List.filter_sublist (p := fun z => r z x ∨ r z y))
  refine ⟨L.filter fun z => r z x ∨ r z y, ?_, ?_⟩
  · exact enumerates_pair (hL.nodup.filter _) hP hr hx hy hne hxy hyx
  · refine enumerates_pair (hL.nodup.filter _) (fun z => ?_) hr hy hx hne.symm hyx hxy
    rw [hP z, or_comm]

end Orders

section Writes

variable [DecidableEq κ] {effect : α → Option (κ × Option β)} {L M : List α} {a x y : α}
variable {k : κ} {v v' : Option β} {s : κ → Option β}

/-- What an operation does to the map, if anything: it sets a key, or clears it. -/
def write (effect : α → Option (κ × Option β)) (s : κ → Option β) (a : α) : κ → Option β :=
  match effect a with
  | none => s
  | some (k, v) => Function.update s k v

theorem write_none (h : effect a = none) : write effect s a = s := by
  simp only [write, h]

theorem write_some (h : effect a = some (k, v)) : write effect s a = Function.update s k v := by
  simp only [write, h]

theorem write_of_eq (h : effect a = some (k, v)) : write effect s a k = v := by
  rw [write_some h, Function.update_self]

theorem write_of_ne (h : ∀ v, effect a ≠ some (k, v)) : write effect s a k = s k := by
  cases he : effect a with
  | none => rw [write_none he]
  | some e =>
    obtain ⟨k', v'⟩ := e
    rw [write_some he]
    refine Function.update_of_ne (fun hk => ?_) _ _
    subst hk
    exact h v' he

theorem foldl_write_of_ne (h : ∀ a ∈ L, ∀ v, effect a ≠ some (k, v)) :
    L.foldl (write effect) s k = s k := by
  induction L generalizing s with
  | nil => rfl
  | cons a L ih =>
    obtain ⟨ha, hL⟩ := List.forall_mem_cons.mp h
    rw [List.foldl_cons, ih hL, write_of_ne ha]

/-- The last write counts. -/
theorem foldl_write_of_last (hx : effect x = some (k, v))
    (hM : ∀ a ∈ M, ∀ v, effect a ≠ some (k, v)) :
    (L ++ x :: M).foldl (write effect) s k = v := by
  rw [List.foldl_append, List.foldl_cons, foldl_write_of_ne hM, write_of_eq hx]

omit [DecidableEq κ] in
theorem exists_last (h : ∃ a ∈ L, ∃ v, effect a = some (k, v)) : ∃ pre x post v,
    L = pre ++ x :: post ∧ effect x = some (k, v) ∧ ∀ a ∈ post, ∀ v, effect a ≠ some (k, v) := by
  induction L using List.reverseRecOn with
  | nil =>
    obtain ⟨a, ha, -⟩ := h
    cases ha
  | append_singleton L b ih =>
    by_cases hb : ∃ v, effect b = some (k, v)
    · obtain ⟨v, hb⟩ := hb
      exact ⟨L, b, [], v, rfl, hb, by simp⟩
    · rw [not_exists] at hb
      obtain ⟨a, ha, v, hv⟩ := h
      have haL : a ∈ L := by
        rcases List.mem_append.mp ha with ha | ha
        · exact ha
        · rw [List.mem_singleton.mp ha] at hv
          exact absurd hv (hb v)
      obtain ⟨pre, x, post, v', rfl, hx, hpost⟩ := ih ⟨a, haL, v, hv⟩
      refine ⟨pre, x, post ++ [b], v', by simp, hx, fun a ha => ?_⟩
      rcases List.mem_append.mp ha with ha | ha
      · exact hpost a ha
      · rw [List.mem_singleton.mp ha]
        exact hb

omit [DecidableEq κ] in
/-- The last operation on a key comes before no other one. -/
theorem Respects.last {r : α → α → Prop} (h : Respects r (L ++ x :: M)) (hmem : y ∈ L ++ x :: M)
    (hy : effect y = some (k, v)) (hM : ∀ a ∈ M, ∀ v, effect a ≠ some (k, v)) :
    x = y ∨ ¬ r x y := by
  rw [Respects, List.pairwise_append] at h
  rcases List.mem_append.mp hmem with hL | hrest
  · exact Or.inr (h.2.2 y hL x (by simp))
  · rcases List.mem_cons.mp hrest with rfl | hrest
    · exact Or.inl rfl
    · exact absurd hy (hM y hrest v)

/-- Operations on one key are ordered, or do the same. -/
def Settled (effect : α → Option (κ × Option β)) (r : α → α → Prop) (x y : α) : Prop :=
  ∀ k v v', effect x = some (k, v) → effect y = some (k, v') → r x y ∨ r y x ∨ v = v'

/-- Orders of the same operations lead to the same map if the operations on each key are
settled. -/
theorem foldl_write_eq {r : α → α → Prop} (hL : Respects r L) (hM : Respects r M)
    (hsame : ∀ a k v, effect a = some (k, v) → (a ∈ L ↔ a ∈ M))
    (hsettled : ∀ x ∈ L, ∀ y ∈ L, Settled effect r x y) :
    L.foldl (write effect) s = M.foldl (write effect) s := by
  funext k
  by_cases h : ∃ a ∈ L, ∃ v, effect a = some (k, v)
  · have h' : ∃ a ∈ M, ∃ v, effect a = some (k, v) := by
      obtain ⟨a, ha, v, hv⟩ := h
      exact ⟨a, (hsame a k v hv).mp ha, v, hv⟩
    obtain ⟨pre, x, post, v, rfl, hx, hpost⟩ := exists_last h
    obtain ⟨pre', y, post', v', rfl, hy, hpost'⟩ := exists_last h'
    rw [foldl_write_of_last hx hpost, foldl_write_of_last hy hpost']
    have hyL := (hsame y k v' hy).mpr (by simp)
    have hxM := (hsame x k v hx).mp (by simp)
    rcases hL.last hyL hy hpost with rfl | hxy
    · rw [hx] at hy
      cases hy
      rfl
    · rcases hM.last hxM hx hpost' with rfl | hyx
      · rw [hx] at hy
        cases hy
        rfl
      · exact ((hsettled x (by simp) y hyL k v v' hx hy).resolve_left hxy).resolve_left hyx
  · have hnone : ∀ a ∈ L, ∀ v, effect a ≠ some (k, v) :=
      fun a ha v hv => h ⟨a, ha, v, hv⟩
    have hnone' : ∀ a ∈ M, ∀ v, effect a ≠ some (k, v) :=
      fun a ha v hv => h ⟨a, (hsame a k v hv).mpr ha, v, hv⟩
    rw [foldl_write_of_ne hnone, foldl_write_of_ne hnone']

end Writes

end Comlink.LastWriter
