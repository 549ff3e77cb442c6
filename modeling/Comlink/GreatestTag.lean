import Mathlib.Data.List.Induction
import Mathlib.Logic.Function.Basic
import Mathlib.Order.Lattice

/-!
# Maps in which the greatest tag wins

A map takes a write to a key unless it holds a value of a greater tag there, so that of two
writes with one tag the later one stays. After a list of writes every key holds the last of
those with the greatest tag. If writes with one tag always come in the order of a rank, that
write is the greatest by tag and then by rank, in whatever order the writes came.
-/
namespace Comlink.GreatestTag

universe u v w x
variable {κ : Type u} {β : Type v} {T : Type w} {ρ : Type x} [LinearOrder T]

section Registers

variable (tag : β → T)

/-- What a single register holds after one more write. -/
def keep (cur : Option β) (b : β) : Option β :=
  match cur with
  | none => some b
  | some a => if tag b < tag a then some a else some b

/-- One write to a map. -/
def put [DecidableEq κ] (m : κ → Option β) (k : κ) (b : β) : κ → Option β :=
  Function.update m k (keep tag (m k) b)

/-- The write that stays: the last of those with the greatest tag. -/
def survivor (bs : List β) : Option β := bs.foldl (keep tag) none

variable {tag}

theorem put_self [DecidableEq κ] (m : κ → Option β) (k : κ) (b : β) :
    put tag m k b k = keep tag (m k) b := Function.update_self ..

theorem put_of_ne [DecidableEq κ] {m : κ → Option β} {k k' : κ} (h : k' ≠ k) (b : β) :
    put tag m k b k' = m k' := Function.update_of_ne h ..

/-- Each key of a map is a register of its own. -/
theorem foldl_put [DecidableEq κ] {ω : Type x} (key : ω → κ) (val : ω → β) (ws : List ω)
    (m : κ → Option β) (k : κ) : ws.foldl (fun m w => put tag m (key w) (val w)) m k =
      ((ws.filter fun w => key w = k).map val).foldl (keep tag) (m k) := by
  induction ws generalizing m with
  | nil => rfl
  | cons w ws ih =>
    rw [List.foldl_cons, ih]
    by_cases h : key w = k
    · subst h
      simp [put_self]
    · simp [h, put_of_ne (Ne.symm h)]

theorem survivor_concat (bs : List β) (b : β) :
    survivor tag (bs ++ [b]) = keep tag (survivor tag bs) b := by
  simp [survivor]

theorem survivor_eq_none_iff {bs : List β} : survivor tag bs = none ↔ bs = [] := by
  induction bs using List.reverseRecOn with
  | nil => simp [survivor]
  | append_singleton bs b _ =>
    simp only [survivor_concat, List.append_eq_nil_iff, List.cons_ne_nil, and_false, iff_false]
    cases survivor tag bs with
    | none => simp [keep]
    | some a => by_cases h : tag b < tag a <;> simp [keep, h]

theorem split_of_survivor {bs : List β} {b : β} (h : survivor tag bs = some b) :
    ∃ pre post, bs = pre ++ b :: post ∧ (∀ a ∈ pre, tag a ≤ tag b) ∧ ∀ a ∈ post, tag a < tag b := by
  induction bs using List.reverseRecOn generalizing b with
  | nil => cases h
  | append_singleton bs c ih =>
    rw [survivor_concat] at h
    cases hs : survivor tag bs with
    | none =>
      rw [hs] at h
      cases h
      exact ⟨bs, [], rfl, by simp [survivor_eq_none_iff.mp hs], by simp⟩
    | some a =>
      obtain ⟨pre, post, rfl, hpre, hpost⟩ := ih hs
      rw [hs] at h
      by_cases hlt : tag c < tag a
      · simp only [keep, hlt, if_true, Option.some.injEq] at h
        subst h
        refine ⟨pre, post ++ [c], by simp, hpre, ?_⟩
        intro x hx
        rcases List.mem_append.mp hx with hx | hx
        · exact hpost x hx
        · rwa [List.mem_singleton.mp hx]
      · simp only [keep, hlt, if_false, Option.some.injEq] at h
        subst h
        have hle := not_lt.mp hlt
        refine ⟨pre ++ a :: post, [], rfl, ?_, by simp⟩
        intro x hx
        rcases List.mem_append.mp hx with hx | hx
        · exact (hpre x hx).trans hle
        · rcases List.mem_cons.mp hx with rfl | hx
          · exact hle
          · exact (hpost x hx).le.trans hle

theorem mem_of_survivor {bs : List β} {b : β} (h : survivor tag bs = some b) : b ∈ bs := by
  obtain ⟨pre, post, rfl, -, -⟩ := split_of_survivor h
  simp

theorem tag_le_survivor {bs : List β} {a b : β} (h : survivor tag bs = some b) (ha : a ∈ bs) :
    tag a ≤ tag b := by
  obtain ⟨pre, post, rfl, hpre, hpost⟩ := split_of_survivor h
  rcases List.mem_append.mp ha with ha | ha
  · exact hpre a ha
  · rcases List.mem_cons.mp ha with rfl | ha
    · exact le_rfl
    · exact (hpost a ha).le

/-- A register that forgets something of its values beside the tag. -/
theorem foldl_keep_map {ω : Type x} (val : ω → β) (ws : List ω) (cur : Option ω) :
    (ws.map val).foldl (keep tag) (cur.map val) =
      (ws.foldl (keep fun w => tag (val w)) cur).map val := by
  induction ws generalizing cur with
  | nil => rfl
  | cons w ws ih =>
    rw [List.map_cons, List.foldl_cons, List.foldl_cons, ← ih]
    congr 1
    cases cur with
    | none => rfl
    | some a => by_cases h : tag (val w) < tag (val a) <;> simp [keep, h]

/-- What a map that was empty holds at a key after a list of writes. -/
theorem foldl_put_empty [DecidableEq κ] {ω : Type x} (key : ω → κ) (val : ω → β) (ws : List ω)
    (k : κ) : ws.foldl (fun m w => put tag m (key w) (val w)) (fun _ => none) k =
      (survivor (fun w => tag (val w)) (ws.filter fun w => key w = k)).map val := by
  rw [foldl_put]
  exact foldl_keep_map val _ none

end Registers

section Ranks

variable [Preorder ρ] {tag : β → T} {rank : β → ρ}

/-- Writes of one tag come in the order of their rank. -/
def InRankOrder (tag : β → T) (rank : β → ρ) (bs : List β) : Prop :=
  bs.Pairwise fun a b => tag a = tag b → rank a < rank b

/-- The greatest write by tag and then by rank. -/
def Greatest (tag : β → T) (rank : β → ρ) (bs : List β) (b : β) : Prop :=
  b ∈ bs ∧ ∀ a ∈ bs, a ≠ b → tag a < tag b ∨ (tag a = tag b ∧ rank a < rank b)

theorem Greatest.perm {bs bs' : List β} {b : β} (h : Greatest tag rank bs b)
    (hp : bs.Perm bs') : Greatest tag rank bs' b :=
  ⟨hp.mem_iff.mp h.1, fun a ha => h.2 a (hp.mem_iff.mpr ha)⟩

theorem Greatest.unique {bs : List β} {a b : β} (ha : Greatest tag rank bs a)
    (hb : Greatest tag rank bs b) : a = b := by
  by_contra hne
  rcases hb.2 a ha.1 hne with hlt | ⟨heq, hlt⟩
  · rcases ha.2 b hb.1 (Ne.symm hne) with hlt' | ⟨heq', -⟩
    · exact lt_asymm hlt hlt'
    · exact absurd hlt (heq' ▸ lt_irrefl _)
  · rcases ha.2 b hb.1 (Ne.symm hne) with hlt' | ⟨-, hlt'⟩
    · exact absurd hlt' (heq ▸ lt_irrefl _)
    · exact lt_asymm hlt hlt'

theorem greatest_of_survivor {bs : List β} {b : β} (hr : InRankOrder tag rank bs)
    (h : survivor tag bs = some b) : Greatest tag rank bs b := by
  obtain ⟨pre, post, rfl, hpre, hpost⟩ := split_of_survivor h
  refine ⟨by simp, ?_⟩
  intro a ha hne
  rcases List.mem_append.mp ha with ha | ha
  · rcases (hpre a ha).lt_or_eq with hlt | heq
    · exact Or.inl hlt
    · exact Or.inr ⟨heq, (List.pairwise_append.mp hr).2.2 a ha b (by simp) heq⟩
  · rcases List.mem_cons.mp ha with rfl | ha
    · exact absurd rfl hne
    · exact Or.inl (hpost a ha)

theorem survivor_eq_some_iff_greatest {bs : List β} {b : β} (hr : InRankOrder tag rank bs) :
    survivor tag bs = some b ↔ Greatest tag rank bs b := by
  constructor
  · exact greatest_of_survivor hr
  · intro h
    cases hs : survivor tag bs with
    | none =>
      rw [survivor_eq_none_iff.mp hs] at h
      cases h.1
    | some a => rw [(greatest_of_survivor hr hs).unique h]

/-- Two orders of the same writes leave the same one, if both keep the ranks. -/
theorem survivor_perm {bs bs' : List β} (hp : bs.Perm bs') (hr : InRankOrder tag rank bs)
    (hr' : InRankOrder tag rank bs') : survivor tag bs = survivor tag bs' := by
  refine Option.ext fun b => ?_
  rw [survivor_eq_some_iff_greatest hr, survivor_eq_some_iff_greatest hr']
  exact ⟨fun h => h.perm hp, fun h => h.perm hp.symm⟩

end Ranks

end Comlink.GreatestTag
