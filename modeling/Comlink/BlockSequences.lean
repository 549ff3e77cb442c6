import Mathlib.Data.List.Infix
import Mathlib.Data.List.Nodup
import Mathlib.Data.List.Pairwise

/-!
# Sequences emitted block by block

A sequence that is emitted in consecutive blocks, the block of index `i` holding
elements of rank `i + 1`. Two such sequences are prefix-comparable as soon as they
agree on the blocks that both have, and an element of smaller rank stands before
every element of larger rank. Two sequences that are sorted by one order are
prefix-comparable when neither passes over an element of the other.
-/
namespace Comlink.BlockSequences

universe u
variable {α : Type u}

/-- One of the two sequences extends the other. -/
def PrefixComparable (l l' : List α) : Prop := l <+: l' ∨ l' <+: l

instance [DecidableEq α] (l l' : List α) : Decidable (PrefixComparable l l') :=
  inferInstanceAs (Decidable (_ ∨ _))

theorem PrefixComparable.of_prefix {l l' L L' : List α} (hl : l <+: L) (hl' : l' <+: L')
    (h : PrefixComparable L L') : PrefixComparable l l' := by
  rcases h with h | h
  · exact List.prefix_or_prefix_of_prefix (hl.trans h) hl'
  · exact List.prefix_or_prefix_of_prefix hl (hl'.trans h)

theorem PrefixComparable.cons {l l' : List α} (h : PrefixComparable l l') (x : α) :
    PrefixComparable (x :: l) (x :: l') := by
  rcases h with h | h
  · exact Or.inl ((List.prefix_cons_inj x).mpr h)
  · exact Or.inr ((List.prefix_cons_inj x).mpr h)

/-- Two lists that agree wherever both are defined are prefix-comparable. -/
theorem prefixComparable_of_getElem? {l l' : List α}
    (h : ∀ (i : ℕ) a b, l[i]? = some a → l'[i]? = some b → a = b) : PrefixComparable l l' := by
  induction l generalizing l' with
  | nil => exact Or.inl (List.nil_prefix)
  | cons x xs ih =>
    cases l' with
    | nil => exact Or.inr (List.nil_prefix)
    | cons y ys =>
      have hxy : x = y := h 0 x y rfl rfl
      subst hxy
      refine PrefixComparable.cons (ih fun i a b ha hb => h (i + 1) a b ?_ ?_) x
      · simpa using ha
      · simpa using hb

/-- Two sorted lists are prefix-comparable if each has whatever the other puts before one of
its elements. -/
theorem prefixComparable_of_sorted {R : α → α → Prop} (hasymm : ∀ a b, R a b → ¬ R b a)
    {l l' : List α} (h : l.Pairwise R) (h' : l'.Pairwise R)
    (htotal : ∀ a ∈ l, ∀ b ∈ l', a = b ∨ R a b ∨ R b a)
    (hl : ∀ a ∈ l, ∀ b ∈ l', R b a → b ∈ l) (hl' : ∀ b ∈ l', ∀ a ∈ l, R a b → a ∈ l') :
    PrefixComparable l l' := by
  induction l generalizing l' with
  | nil => exact Or.inl List.nil_prefix
  | cons x xs ih =>
    cases l' with
    | nil => exact Or.inr List.nil_prefix
    | cons y ys =>
      obtain ⟨hx, hxs⟩ := List.pairwise_cons.mp h
      obtain ⟨hy, hys⟩ := List.pairwise_cons.mp h'
      have hxy : x = y := by
        rcases htotal x (List.mem_cons_self ..) y (List.mem_cons_self ..) with heq | hlt | hgt
        · exact heq
        · rcases List.mem_cons.mp (hl' y (List.mem_cons_self ..) x (List.mem_cons_self ..) hlt)
            with heq | hmem
          · exact heq
          · exact absurd hlt (hasymm y x (hy x hmem))
        · rcases List.mem_cons.mp (hl x (List.mem_cons_self ..) y (List.mem_cons_self ..) hgt)
            with heq | hmem
          · exact heq.symm
          · exact absurd hgt (hasymm x y (hx y hmem))
      subst hxy
      refine PrefixComparable.cons (ih hxs hys ?_ ?_ ?_) x
      · exact fun a ha b hb => htotal a (List.mem_cons_of_mem _ ha) b (List.mem_cons_of_mem _ hb)
      · intro a ha b hb hba
        rcases List.mem_cons.mp (hl a (List.mem_cons_of_mem _ ha) b
          (List.mem_cons_of_mem _ hb) hba) with rfl | hmem
        · exact absurd (hy b hb) (hasymm b b (hy b hb))
        · exact hmem
      · intro b hb a ha hab
        rcases List.mem_cons.mp (hl' b (List.mem_cons_of_mem _ hb) a
          (List.mem_cons_of_mem _ ha) hab) with rfl | hmem
        · exact absurd (hx a ha) (hasymm a a (hx a ha))
        · exact hmem

theorem PrefixComparable.flatten {bs bs' : List (List α)} (h : PrefixComparable bs bs') :
    PrefixComparable bs.flatten bs'.flatten := by
  rcases h with ⟨t, rfl⟩ | ⟨t, rfl⟩
  · rw [List.flatten_append]
    exact Or.inl (List.prefix_append _ _)
  · rw [List.flatten_append]
    exact Or.inr (List.prefix_append _ _)

/-- The block of index `i` holds elements of rank `i + 1` only. -/
def Ranked (rank : α → ℕ) (bs : List (List α)) : Prop :=
  ∀ i b, bs[i]? = some b → ∀ e ∈ b, rank e = i + 1

section Ranked
variable {rank : α → ℕ} {bs : List (List α)}

theorem ranked_nil : Ranked rank [] := by
  intro i b hb
  cases hb

theorem Ranked.append (h : Ranked rank bs) {b : List α} (hb : ∀ e ∈ b, rank e = bs.length + 1) :
    Ranked rank (bs ++ [b]) := by
  intro i c hc e he
  rcases Nat.lt_or_ge i bs.length with hi | hi
  · rw [List.getElem?_append_left hi] at hc
    exact h i c hc e he
  · rw [List.getElem?_append_right hi, List.getElem?_singleton] at hc
    split at hc
    · have hcb := Option.some.inj hc
      subst hcb
      have := hb e he
      omega
    · cases hc

/-- Ranks never decrease along the emitted sequence. -/
theorem Ranked.pairwise_flatten (h : Ranked rank bs) :
    bs.flatten.Pairwise (fun a b => rank a ≤ rank b) := by
  rw [List.pairwise_flatten]
  refine ⟨?_, ?_⟩
  · intro b hb
    obtain ⟨i, hi⟩ := List.mem_iff_getElem?.mp hb
    refine List.pairwise_iff_forall_sublist.mpr ?_
    intro x y hxy
    rw [h i b hi x (hxy.subset (by simp)), h i b hi y (hxy.subset (by simp))]
  · rw [List.pairwise_iff_getElem]
    intro i j hi hj hij x hx y hy
    rw [h i _ (List.getElem?_eq_getElem hi) x hx, h j _ (List.getElem?_eq_getElem hj) y hy]
    omega

theorem Ranked.mem_block (h : Ranked rank bs) {e : α} (he : e ∈ bs.flatten) :
    ∃ b, bs[rank e - 1]? = some b ∧ e ∈ b ∧ 0 < rank e := by
  obtain ⟨b, hb, heb⟩ := List.mem_flatten.mp he
  obtain ⟨i, hi⟩ := List.mem_iff_getElem?.mp hb
  have hr := h i b hi e heb
  have hidx : rank e - 1 = i := by omega
  exact ⟨b, by rw [hidx]; exact hi, heb, by omega⟩

theorem Ranked.nodup_flatten (h : Ranked rank bs) (hn : ∀ b ∈ bs, b.Nodup) :
    bs.flatten.Nodup := by
  rw [List.nodup_flatten]
  refine ⟨hn, ?_⟩
  rw [List.pairwise_iff_getElem]
  intro i j hi hj hij x hx hy
  have hxi := h i _ (List.getElem?_eq_getElem hi) x hx
  have hxj := h j _ (List.getElem?_eq_getElem hj) x hy
  omega

/-- An element of smaller rank that has been emitted stands before one of larger rank. -/
theorem Ranked.mem_before (h : Ranked rank bs) {out rest pre post : List α} {a b : α}
    (hsplit : bs.flatten = out ++ rest) (hout : out = pre ++ b :: post) (ha : a ∈ bs.flatten)
    (hlt : rank a < rank b) : a ∈ pre := by
  have hp := h.pairwise_flatten
  rw [hsplit, hout, List.append_assoc, List.pairwise_append] at hp
  rw [hsplit, hout, List.append_assoc, List.mem_append] at ha
  rcases ha with ha | ha
  · exact ha
  · rw [List.cons_append, List.mem_cons] at ha
    rw [List.cons_append, List.pairwise_cons] at hp
    rcases ha with rfl | ha
    · omega
    · have := hp.2.1.1 a ha
      omega

end Ranked

end Comlink.BlockSequences
