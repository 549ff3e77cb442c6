import Mathlib.Data.List.Induction

/-!
# Saturation

A rule says which elements become ready once some others have been taken. Taking ready
elements one after the other, in any order, until none is left takes exactly the least set
that contains whatever is ready on the strength of its members.
-/
namespace Comlink.Saturation

universe u
variable {α : Type u} {ready : (α → Prop) → α → Prop} {out : List α}

/-- The least set that is closed under the rule. -/
inductive Derived (ready : (α → Prop) → α → Prop) : α → Prop
  | intro {S : α → Prop} {x : α} (hS : ∀ y, S y → Derived ready y) (hx : ready S x) :
      Derived ready x

/-- What is ready stays so when more has been taken. -/
def Monotone (ready : (α → Prop) → α → Prop) : Prop :=
  ∀ S T : α → Prop, (∀ y, S y → T y) → ∀ x, ready S x → ready T x

/-- Each element is ready when those before it have been taken. -/
def Chain (ready : (α → Prop) → α → Prop) (out : List α) : Prop :=
  ∀ pre x post, out = pre ++ x :: post → ready (· ∈ pre) x

theorem Derived.of_closed (hm : Monotone ready) {T : α → Prop} (hT : ∀ x, ready T x → T x) {x : α}
    (h : Derived ready x) : T x := by
  induction h with
  | intro _ hx ih => exact hT _ (hm _ T ih _ hx)

theorem Chain.derived (h : Chain ready out) : ∀ x ∈ out, Derived ready x := by
  induction out using List.reverseRecOn with
  | nil => exact fun x hx => absurd hx List.not_mem_nil
  | append_singleton out y ih =>
    have hinit : ∀ x ∈ out, Derived ready x := by
      refine ih fun pre x post he => h pre x (post ++ [y]) ?_
      rw [he, List.append_assoc, List.cons_append]
    intro x hx
    rcases List.mem_append.mp hx with hx | hx
    · exact hinit x hx
    · obtain rfl := List.mem_singleton.mp hx
      exact .intro hinit (h out x [] rfl)

/-- A chain after which nothing else is ready has taken the least set. -/
theorem Chain.mem_iff (h : Chain ready out) (hm : Monotone ready)
    (hclosed : ∀ x, ready (· ∈ out) x → x ∈ out) (x : α) : x ∈ out ↔ Derived ready x :=
  ⟨h.derived x, fun hx => hx.of_closed hm hclosed⟩

end Comlink.Saturation
